import Hadouken.Library.Separation
import Hadouken.Library.Values

/-!
# The script's HTTP Basic authenticator

`authenticator` of auth.js splits the header at spaces and the decoded token at
colons, and compares the first two colon fields with the configured user name
and password. Headers are texts of code points. Decoded data and configured
credentials are byte lists, the engine's own representation of a string.

The base64 decoder follows the engine's: white space is skipped, padding bits
are not checked, decoding goes on after padding, and an unfinished group is an
error. Lower-casing beyond ASCII is a parameter constrained by what Unicode
fixes: no other character becomes a plain Latin letter, except the Kelvin sign.
-/

namespace Hadouken.BasicCredentials

open Hadouken.Script

/-- A row of bytes. -/
abbrev Bytes := List UInt8

/-- The byte of `:`. -/
def colon : UInt8 := 58

/-- The configured default for both credentials, `admin`. -/
def admin : Bytes := [97, 100, 109, 105, 110]

/-- A configuration string, or the default when it is absent or empty. -/
def configured (setting : Option Bytes) : Bytes :=
  match setting with
  | some text => if text = [] then admin else text
  | none => admin

/-- Value of one character of the base64 alphabet. -/
def base64Digit (x : Char) : Option Nat :=
  if 'A' ≤ x ∧ x ≤ 'Z' then some (x.toNat - 'A'.toNat)
  else if 'a' ≤ x ∧ x ≤ 'z' then some (x.toNat - 'a'.toNat + 26)
  else if '0' ≤ x ∧ x ≤ '9' then some (x.toNat - '0'.toNat + 52)
  else if x = '+' then some 62
  else if x = '/' then some 63
  else none

/-- The characters the decoder skips. -/
def base64Space (x : Char) : Bool := x = '\t' ∨ x = '\n' ∨ x = '\r' ∨ x = ' '

/-- The decoder's loop: `t` accumulates the digits of the current group and
`groupIdx` counts them. An error has no result. -/
def base64DecodeHelper (t groupIdx : Nat) : List Char → Option Bytes
  | [] => if groupIdx ≠ 0 then none else some []
  | x :: src =>
      match base64Digit x with
      | some y =>
          let t := t * 64 + y
          if groupIdx = 3 then
            (base64DecodeHelper 0 0 src).map
              ([UInt8.ofNat (t / 65536), UInt8.ofNat (t / 256), UInt8.ofNat t] ++ ·)
          else base64DecodeHelper t (groupIdx + 1) src
      | none =>
          if x = '=' then
            if groupIdx = 2 then
              match src with
              | '=' :: src => (base64DecodeHelper 0 0 src).map ([UInt8.ofNat (t / 16)] ++ ·)
              | _ => none
            else if groupIdx = 3 then
              (base64DecodeHelper 0 0 src).map
                ([UInt8.ofNat (t / 4 / 256), UInt8.ofNat (t / 4)] ++ ·)
            else none
          else if base64Space x then base64DecodeHelper t groupIdx src
          else none

/-- `Duktape.dec("base64", text)`; no result where it throws. -/
def base64Decode (text : List Char) : Option Bytes := base64DecodeHelper 0 0 text

/-- The lower-case forms of the characters outside ASCII, which may depend on
the text around them. -/
structure CaseTable where
  special : List Char → Char → List Char → List Char
  outside : ∀ before c after, 128 ≤ c.toNat →
    ∃ d ∈ special before c after, 128 ≤ d.toNat ∨ d = 'k'

/-- Characters of the text in lower case, given what precedes them. -/
def toLowerCaseAfter (table : CaseTable) : List Char → List Char → List Char
  | _, [] => []
  | before, c :: after =>
      (if c.toNat < 128 then [c.toLower] else table.special before c after) ++
        toLowerCaseAfter table (before ++ [c]) after

/-- `String.prototype.toLowerCase`. -/
def toLowerCase (table : CaseTable) (text : List Char) : List Char :=
  toLowerCaseAfter table [] text

/-- The scheme is the word `basic`, in any letter case. -/
def IsBasic (scheme : List Char) : Prop := scheme.map Char.toLower = "basic".toList

/-- The scheme is compared. -/
instance (scheme : List Char) : Decidable (IsBasic scheme) := by
  unfold IsBasic; infer_instance

/-- `authenticator(header)` of auth.js. An absent part is converted to the text
`undefined`, as `String` does. -/
def authenticator (table : CaseTable) (userNameSetting passwordSetting : Option Bytes)
    (header : List Char) : Except ErrorObject Bool :=
  let userName := configured userNameSetting
  let password := configured passwordSetting
  let parts := header.splitOn ' '
  if parts.length = 0 then .ok false
  else if "basic".toList ≠ toLowerCase table (parts[0]?.getD "undefined".toList) then .ok false
  else
    match base64Decode (parts[1]?.getD "undefined".toList) with
    | none => .error (typeError "base64 decode failed")
    | some data =>
        let combo := data.splitOn colon
        .ok (combo[0]? = some userName && combo[1]? = some password)

/-- The header carries exactly these credentials: two space-separated parts,
the scheme and a token for `userName:password`. -/
def BasicHeader (userName password : Bytes) (header : List Char) : Prop :=
  ∃ scheme token, header.splitOn ' ' = [scheme, token] ∧ IsBasic scheme ∧
    base64Decode token = some (userName ++ colon :: password)

/-- A text whose lower case is a word of plain letters is that word, letter by
letter. A character outside ASCII leaves something the word does not hold. -/
theorem toLowerCaseAfter_eq_iff (table : CaseTable) (before text word : List Char)
    (plain : ∀ d ∈ word, d.toNat < 128 ∧ d ≠ 'k') :
    toLowerCaseAfter table before text = word ↔ text.map Char.toLower = word := by
  induction text generalizing before word with
  | nil => rfl
  | cons c after ih =>
    rw [toLowerCaseAfter, List.map_cons]
    by_cases ascii : c.toNat < 128
    · cases word with
      | nil => simp [ascii]
      | cons letter rest =>
        have plainRest : ∀ d ∈ rest, d.toNat < 128 ∧ d ≠ 'k' := fun d member =>
          plain d (List.mem_cons_of_mem _ member)
        simp [ascii, ih (before ++ [c]) rest plainRest]
    · have special : toLowerCaseAfter table before (c :: after) ≠ word := by
        obtain ⟨d, member, foreign⟩ := table.outside before c after (Nat.le_of_not_lt ascii)
        intro same
        have inWord : d ∈ word := by
          rw [← same, toLowerCaseAfter, if_neg ascii]
          exact List.mem_append_left _ member
        obtain ⟨small, notKelvin⟩ := plain d inWord
        rcases foreign with large | kelvin
        · omega
        · exact notKelvin kelvin
      have unchanged : c.toLower = c := by
        have above : ¬ (c.val ≥ 'A'.val ∧ c.val ≤ 'Z'.val) := by
          rintro ⟨_, upper⟩
          have bound : c.toNat ≤ 'Z'.toNat := upper
          have last : 'Z'.toNat = 90 := rfl
          omega
        exact dif_neg above
      constructor
      · intro same
        exact absurd same special
      · intro same
        have inWord : c ∈ word := by
          rw [← same, unchanged]
          exact List.mem_cons_self
        exact absurd (plain c inWord).1 ascii

/-- The scheme test of the script is the comparison in any letter case. -/
theorem scheme_accepted_iff (table : CaseTable) (scheme : List Char) :
    "basic".toList = toLowerCase table scheme ↔ IsBasic scheme := by
  have plain : ∀ d ∈ "basic".toList, d.toNat < 128 ∧ d ≠ 'k' := by simp
  rw [eq_comm, toLowerCase, toLowerCaseAfter_eq_iff table [] scheme _ plain, IsBasic]

/-- A header without a second part leaves the text `undefined` to decode, and
its ninth character opens a group that never ends. -/
theorem base64Decode_undefined : base64Decode "undefined".toList = none := by
  rfl

/-- The script accepts on the first two parts of the header and the first two
fields of the decoded token alone. -/
theorem authenticator_true_iff (table : CaseTable) (userName password : Bytes)
    (header : List Char) (named : userName ≠ []) (secret : password ≠ []) :
    authenticator table (some userName) (some password) header = .ok true ↔
      ∃ scheme token others payload, header.splitOn ' ' = scheme :: token :: others ∧
        IsBasic scheme ∧ base64Decode token = some payload ∧
        ∃ more, payload.splitOn colon = userName :: password :: more := by
  have configuredUser : configured (some userName) = userName := if_neg named
  have configuredPassword : configured (some password) = password := if_neg secret
  simp only [authenticator, configuredUser, configuredPassword]
  cases split : header.splitOn ' ' with
  | nil => exact absurd split (List.splitOn_ne_nil _ _)
  | cons scheme rest =>
    rw [if_neg (by simp)]
    simp only [List.getElem?_cons_zero, List.getElem?_cons_succ, Option.getD_some, ne_eq,
      scheme_accepted_iff]
    by_cases basic : IsBasic scheme
    · cases rest with
      | nil =>
        simp only [basic, List.getElem?_nil, Option.getD_none, base64Decode_undefined]
        simp
      | cons token others =>
        simp only [basic, not_true_eq_false, if_false, List.getElem?_cons_zero, Option.getD_some]
        cases decoded : base64Decode token with
        | none => simp [decoded]
        | some payload =>
          have fields : (payload.splitOn colon)[0]? = some userName ∧
              (payload.splitOn colon)[1]? = some password ↔
              ∃ more, payload.splitOn colon = userName :: password :: more := by
            rcases payload.splitOn colon with _ | ⟨first, _ | ⟨second, more⟩⟩ <;> simp
          simp [basic, decoded, fields]
    · simp [basic]

/-- A basic header whose token is no base64 makes the script throw. -/
theorem authenticator_malformed (table : CaseTable) (userNameSetting passwordSetting : Option Bytes)
    (header scheme token : List Char) (others : List (List Char))
    (split : header.splitOn ' ' = scheme :: token :: others) (basic : IsBasic scheme)
    (malformed : base64Decode token = none) :
    authenticator table userNameSetting passwordSetting header =
      .error (typeError "base64 decode failed") := by
  have accepted : "basic".toList = toLowerCase table scheme :=
    (scheme_accepted_iff table scheme).mpr basic
  simp only [authenticator, split, List.getElem?_cons_zero, List.getElem?_cons_succ,
    Option.getD_some, malformed]
  rw [if_neg (by simp), if_neg (not_not.mpr accepted)]

/-- Where the fields the script compares say the same as the whole header: a
password with a colon is not the one offered, and a matching offer has neither
a third part nor a further colon field. -/
def NoStraySeparators (userName password : Bytes) (header : List Char) : Prop :=
  ∀ scheme token others payload, header.splitOn ' ' = scheme :: token :: others →
    IsBasic scheme → base64Decode token = some payload →
    if colon ∈ password then payload = userName ++ colon :: password → others ≠ []
    else (payload = userName ++ colon :: password → others = []) ∧
      ¬ userName ++ colon :: (password ++ [colon]) <+: payload

/-- The first two colon fields are the credentials when the password holds no
colon and the payload is the two joined, alone or before another colon. -/
theorem fields_match_iff (userName password payload : Bytes) (plain : colon ∉ userName) :
    (∃ more, payload.splitOn colon = userName :: password :: more) ↔
      colon ∉ password ∧ (payload = userName ++ colon :: password ∨
        userName ++ colon :: (password ++ [colon]) <+: payload) := by
  rw [Separation.first_two_iff]
  have further : (∃ rest, payload = userName ++ colon :: (password ++ colon :: rest)) ↔
      userName ++ colon :: (password ++ [colon]) <+: payload := by
    constructor
    · rintro ⟨rest, rfl⟩
      exact ⟨rest, by simp⟩
    · rintro ⟨rest, rfl⟩
      exact ⟨rest, by simp⟩
  rw [further]
  exact ⟨fun ⟨_, rest⟩ => rest, fun rest => ⟨plain, rest⟩⟩

/-- The authenticator is exact on a header if and only if no separator strays
into a field it ignores: it neither turns away a password that holds a colon
nor lets a third part or a further field through. -/
theorem exact_iff_noStraySeparators (table : CaseTable) (userName password : Bytes)
    (header : List Char) (named : userName ≠ []) (plain : colon ∉ userName)
    (secret : password ≠ []) :
    (authenticator table (some userName) (some password) header = .ok true ↔
      BasicHeader userName password header) ↔ NoStraySeparators userName password header := by
  rw [authenticator_true_iff table userName password header named secret]
  simp only [fields_match_iff userName password _ plain]
  constructor
  · intro agree scheme token others payload split basic decoded
    have accepted : colon ∉ password → (payload = userName ++ colon :: password ∨
        userName ++ colon :: (password ++ [colon]) <+: payload) →
        others = [] ∧ payload = userName ++ colon :: password := by
      intro free fields
      obtain ⟨_, _, parts, _, whole⟩ :=
        agree.mp ⟨scheme, token, others, payload, split, basic, decoded, free, fields⟩
      rw [split] at parts
      obtain ⟨rfl, rfl, rfl⟩ : scheme = _ ∧ token = _ ∧ others = [] := by simpa using parts
      exact ⟨rfl, Option.some.inj (decoded.symm.trans whole)⟩
    split_ifs with separated
    · rintro same rfl
      obtain ⟨_, _, _, _, _, _, _, free, _⟩ :=
        agree.mpr ⟨scheme, token, split, basic, same ▸ decoded⟩
      exact free separated
    · refine ⟨fun same => (accepted separated (.inl same)).1, fun longer => ?_⟩
      have same := (accepted separated (.inr longer)).2
      have shorter : (userName ++ colon :: (password ++ [colon])).length ≤ payload.length :=
        longer.length_le
      simp only [same, List.length_append, List.length_cons, List.length_nil] at shorter
      omega
  · intro separators
    constructor
    · rintro ⟨scheme, token, others, payload, split, basic, decoded, free, fields⟩
      have clear := separators scheme token others payload split basic decoded
      rw [if_neg free] at clear
      obtain same | longer := fields
      · obtain rfl := clear.1 same
        exact ⟨scheme, token, split, basic, same ▸ decoded⟩
      · exact absurd longer clear.2
    · rintro ⟨scheme, token, split, basic, decoded⟩
      have clear := separators scheme token [] _ split basic decoded
      have free : colon ∉ password := by
        intro separated
        rw [if_pos separated] at clear
        exact clear rfl rfl
      exact ⟨scheme, token, [], _, split, basic, decoded, free, .inl rfl⟩

/-- A case table under which only plain letters change. -/
def plainCases : CaseTable where
  special _ c _ := [c]
  outside _ c _ large := ⟨c, List.mem_singleton.mpr rfl, .inl large⟩

/-- The default credentials in the form a browser sends them meet the condition
and are accepted. -/
theorem default_credentials_exact :
    NoStraySeparators admin admin "Basic YWRtaW46YWRtaW4=".toList ∧
      (authenticator plainCases (some admin) (some admin) "Basic YWRtaW46YWRtaW4=".toList =
        .ok true ↔ BasicHeader admin admin "Basic YWRtaW46YWRtaW4=".toList) := by
  have clear : NoStraySeparators admin admin "Basic YWRtaW46YWRtaW4=".toList := by
    intro scheme token others payload split basic decoded
    have parts : "Basic YWRtaW46YWRtaW4=".toList.splitOn ' ' =
        ["Basic".toList, "YWRtaW46YWRtaW4=".toList] := by decide
    rw [parts] at split
    obtain ⟨rfl, rfl, rfl⟩ : "Basic".toList = scheme ∧ "YWRtaW46YWRtaW4=".toList = token ∧
        [] = others := by simpa using split
    have whole : base64Decode "YWRtaW46YWRtaW4=".toList =
        some [97, 100, 109, 105, 110, 58, 97, 100, 109, 105, 110] := by decide +kernel
    obtain rfl := Option.some.inj (whole.symm.trans decoded)
    decide
  exact ⟨clear, (exact_iff_noStraySeparators plainCases admin admin _ (by decide) (by decide)
    (by decide)).mpr clear⟩

/-- With the password `a:b` the header a browser sends is turned away. -/
theorem colon_password_rejected :
    ¬ (authenticator plainCases (some admin) (some [97, 58, 98]) "Basic YWRtaW46YTpi".toList =
      .ok true ↔ BasicHeader admin [97, 58, 98] "Basic YWRtaW46YTpi".toList) := by
  have legitimate : BasicHeader admin [97, 58, 98] "Basic YWRtaW46YTpi".toList :=
    ⟨"Basic".toList, "YWRtaW46YTpi".toList, by decide, by decide, by decide +kernel⟩
  have rejected : authenticator plainCases (some admin) (some [97, 58, 98])
      "Basic YWRtaW46YTpi".toList ≠ .ok true := by
    rw [Ne, authenticator_true_iff plainCases _ _ _ (by decide) (by decide)]
    simp only [fields_match_iff _ _ _ (by decide : colon ∉ admin)]
    rintro ⟨_, _, _, _, _, _, _, free, _⟩
    exact free (by decide)
  exact fun agree => rejected (agree.mpr legitimate)

end Hadouken.BasicCredentials
