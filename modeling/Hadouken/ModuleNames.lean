import Mathlib.Data.List.Chain
import Mathlib.Data.List.DropRight

/-!
# Module identifiers

`duk__bi_global_resolve_module_id` of the vendored duktape.c turns the string
given to `require` into the identifier of a module. It copies the terms of the
request from one buffer into another, eats `.` and repeated slashes, and takes
the last term back at `..`.

An identifier is the list of its bytes, each as a character. Buffers hold 256
bytes. The terminating NUL is the end of the list.
-/

namespace Hadouken.ModuleNames

/-- The bytes of an identifier. -/
abbrev Id := List Char

/-- Where the resolution loop stands: at the start of the input, behind the dots
of a term, inside a term that is copied, or at the label `eat_dup_slashes`. -/
inductive Place where
  | term
  | dot
  | dots
  | name
  | slashes
deriving DecidableEq

/-- Take back the last term and its slash, down to the slash before it. -/
def backtrack (written : Id) : Id := written.dropLast.rdropWhile (· ≠ '/')

/-- Read one byte `c`, with `written` in the output buffer. No result is the
`resolve_error`. -/
def read : Place × Id → Char → Option (Place × Id)
  | (.slashes, written), '/' => some (.slashes, written)
  | (.term, written), c | (.slashes, written), c =>
      if c = '.' then some (.dot, written) else some (.name, written ++ [c])
  | (.dot, written), c =>
      if c = '/' then some (.slashes, written)
      else if c = '.' then some (.dots, written)
      else none
  | (.dots, written), c =>
      if c = '/' ∧ written ≠ [] then some (.slashes, backtrack written) else none
  | (.name, written), c =>
      if c = '/' then some (.slashes, written ++ ['/']) else some (.name, written ++ [c])

/-- The resolution loop. -/
def scan (input : Id) : Option (Place × Id) := input.foldlM read (.term, [])

/-- The input has to end inside a term. -/
def resolveInput (input : Id) : Option Id :=
  match scan input with
  | some (.name, written) => some written
  | _ => none

/-- `DUK_BI_COMMONJS_MODULE_ID_LIMIT`. -/
def limit : Nat := 256

/-- What is thrown for a request that leads nowhere. -/
def resolveError (request : Id) : Id := "cannot resolve module id: ".toList ++ request

/-- The input of the resolution, if it fits: a request that starts with a dot
replaces the last term of the current module's identifier. -/
def resolveBuffer (current : Option Id) (request : Id) : Option Id :=
  match current with
  | some modId =>
      if request.head? = some '.' then
        if modId.length + 4 + request.length + 1 ≥ limit then none
        else some (modId ++ "/../".toList ++ request)
      else if request.length + 1 ≥ limit then none
      else some request
  | none => if request.length + 1 ≥ limit then none else some request

/-- `duk__bi_global_resolve_module_id`, with the text of its `TypeError`. -/
def resolveModuleId (current : Option Id) (request : Id) : Except Id Id :=
  match (resolveBuffer current request).bind resolveInput with
  | some id => .ok id
  | none => .error (resolveError request)

example : resolveModuleId (some "plugins/autoadd".toList) "./../rss".toList =
    .ok "rss".toList := by decide

/-- A term goes on after this pair of bytes: no slash or dot behind a slash. -/
def Follows (first second : Char) : Prop := first = '/' → second ≠ '/' ∧ second ≠ '.'

/-- The pair is looked at. -/
instance (first second : Char) : Decidable (Follows first second) := by
  unfold Follows; infer_instance

/-- The shape of an identifier. Its first byte is copied whatever it is, so that
it may be a slash. -/
def Settled : Id → Prop
  | [] => False
  | first :: rest => first ≠ '.' ∧ rest.IsChain Follows ∧ rest.getLast? ≠ some '/'

/-- The bytes are looked at one after the other. -/
instance (id : Id) : Decidable (Settled id) := by
  cases id with
  | nil => exact isFalse id
  | cons first rest => unfold Settled; infer_instance

/-- What is written in front of a term: nothing, or terms and a slash. -/
def Open (written : Id) : Prop :=
  written = [] ∨ written = ['/'] ∨ ∃ terms, Settled terms ∧ written = terms ++ ['/']

/-- What the loop keeps at each place. -/
def Kept : Place × Id → Prop
  | (.term, written) => written = []
  | (.name, written) => Settled written
  | (_, written) => Open written

/-- A term goes on with anything but a slash. -/
theorem Settled.push {written : Id} {c : Char} (settled : Settled written) (plain : c ≠ '/') :
    Settled (written ++ [c]) := by
  cases written with
  | nil => exact settled.elim
  | cons first rest =>
    obtain ⟨start, chain, last⟩ := settled
    refine ⟨start, List.isChain_append.mpr ⟨chain, List.isChain_singleton c, ?_⟩, by simpa⟩
    intro before ended after _ slash
    exact absurd (slash ▸ ended) (by simpa using last)

/-- A term starts with anything but a slash or a dot. -/
theorem Open.push {written : Id} {c : Char} (room : Open written) (plain : c ≠ '/')
    (noDot : c ≠ '.') : Settled (written ++ [c]) := by
  rcases room with rfl | rfl | ⟨terms, settled, rfl⟩
  · exact ⟨noDot, List.isChain_nil, by simp⟩
  · exact ⟨by decide, List.isChain_singleton c, by simpa⟩
  · cases terms with
    | nil => exact settled.elim
    | cons first rest =>
      obtain ⟨start, chain, last⟩ := settled
      refine ⟨start, ?_, by simpa⟩
      change List.IsChain Follows ((rest ++ ['/']) ++ [c])
      rw [List.append_assoc]
      refine List.isChain_append.mpr ⟨chain, ?_, ?_⟩
      · exact List.isChain_pair.mpr fun _ => ⟨plain, noDot⟩
      · intro before ended after _ slash
        exact absurd (slash ▸ ended) (by simpa using last)

/-- Without its last byte an identifier is open or settled. -/
theorem Settled.front {written : Id} {c : Char} (settled : Settled (written ++ [c])) :
    (c = '/' → written = []) ∧ (Open written ∨ Settled written) := by
  cases written with
  | nil => exact ⟨fun _ => rfl, .inl (.inl rfl)⟩
  | cons first rest =>
    obtain ⟨start, chain, last⟩ := settled
    obtain ⟨front, -, joined⟩ := List.isChain_append.mp chain
    refine ⟨fun slash => absurd slash (by simpa using last), ?_⟩
    by_cases ended : rest.getLast? = some '/'
    · obtain ⟨terms, rfl⟩ := List.getLast?_eq_some_iff.mp ended
      obtain ⟨inner, -, outer⟩ := List.isChain_append.mp front
      refine .inl (.inr (.inr ⟨first :: terms, ⟨start, inner, fun slash => ?_⟩, rfl⟩))
      exact (outer '/' slash '/' rfl rfl).1 rfl
    · exact .inr ⟨start, front, ended⟩

/-- In front of the last term another one may start. -/
theorem open_rdropWhile (written : Id) (kept : Open written ∨ Settled written) :
    Open (written.rdropWhile (· ≠ '/')) := by
  induction written using List.reverseRecOn with
  | nil => exact .inl rfl
  | append_singleton front c ih =>
    by_cases slash : c = '/'
    · subst slash
      rw [List.rdropWhile_concat_neg _ _ _ (by simp)]
      rcases kept with room | settled
      · exact room
      · rw [settled.front.1 rfl]
        exact .inr (.inl rfl)
    · rw [List.rdropWhile_concat_pos _ _ _ (by simpa using slash)]
      rcases kept with room | settled
      · rcases room with impossible | single | ⟨terms, -, same⟩
        · simp at impossible
        · have same : front ++ [c] = [] ++ ['/'] := single
          exact absurd (List.append_inj' same rfl).2 (by simpa)
        · exact absurd (List.append_inj' same rfl).2 (by simpa)
      · exact ih settled.front.2

/-- Going back one term leaves terms and a slash, or nothing. -/
theorem Open.backtrack {written : Id} (room : Open written) : Open (backtrack written) := by
  rcases room with rfl | rfl | ⟨terms, settled, rfl⟩
  · exact .inl rfl
  · exact .inl rfl
  · rw [ModuleNames.backtrack, List.dropLast_concat]
    exact open_rdropWhile terms (.inr settled)

/-- Going back makes nothing longer. -/
theorem backtrack_length (written : Id) : (backtrack written).length ≤ written.length := by
  have shorter := (List.rdropWhile_prefix (· ≠ '/') (l := written.dropLast)).length_le
  rw [List.length_dropLast] at shorter
  exact shorter.trans (Nat.sub_le _ 1)

/-- One byte keeps what the loop keeps, and writes at most one. -/
theorem read_kept {state next : Place × Id} {c : Char} (kept : Kept state)
    (stepped : read state c = some next) :
    Kept next ∧ next.2.length ≤ state.2.length + 1 := by
  obtain ⟨place, written⟩ := state
  cases place with
  | term =>
    obtain rfl : written = [] := kept
    by_cases dot : c = '.' <;> simp only [read, dot, ↓reduceIte, Option.some.injEq] at stepped <;>
      subst stepped
    · exact ⟨.inl rfl, by simp⟩
    · exact ⟨⟨dot, List.isChain_nil, by simp⟩, by simp⟩
  | dot =>
    simp only [read] at stepped
    split at stepped
    · obtain rfl := Option.some.inj stepped
      exact ⟨kept, Nat.le_succ _⟩
    · split at stepped
      · obtain rfl := Option.some.inj stepped
        exact ⟨kept, Nat.le_succ _⟩
      · cases stepped
  | dots =>
    simp only [read] at stepped
    split at stepped
    · obtain rfl := Option.some.inj stepped
      exact ⟨Open.backtrack kept, (backtrack_length written).trans (Nat.le_succ _)⟩
    · cases stepped
  | name =>
    simp only [read] at stepped
    split at stepped
    · obtain rfl := Option.some.inj stepped
      exact ⟨.inr (.inr ⟨written, kept, rfl⟩), by simp⟩
    · obtain rfl := Option.some.inj stepped
      exact ⟨Settled.push kept ‹_›, by simp⟩
  | slashes =>
    by_cases slash : c = '/'
    · subst slash
      obtain rfl := Option.some.inj stepped
      exact ⟨kept, Nat.le_succ _⟩
    · rw [read] at stepped
      · split at stepped
        · obtain rfl := Option.some.inj stepped
          exact ⟨kept, Nat.le_succ _⟩
        · obtain rfl := Option.some.inj stepped
          exact ⟨Open.push kept slash ‹_›, by simp⟩
      · exact slash

/-- The start of the input is left with the first byte. -/
theorem read_place {state next : Place × Id} {c : Char} (stepped : read state c = some next) :
    next.1 ≠ .term := by
  unfold read at stepped
  split at stepped
  · obtain rfl := Option.some.inj stepped
    simp
  all_goals
    split at stepped
    · obtain rfl := Option.some.inj stepped
      simp
    · first
      | obtain rfl := Option.some.inj stepped
        simp
      | cases stepped
      | split at stepped
        · obtain rfl := Option.some.inj stepped
          simp
        · cases stepped

/-- The loop keeps its shape, and writes no more than it reads. -/
theorem foldlM_kept (input : Id) (state next : Place × Id) (kept : Kept state)
    (ran : input.foldlM read state = some next) :
    Kept next ∧ next.2.length ≤ state.2.length + input.length := by
  induction input generalizing state with
  | nil =>
    obtain rfl := Option.some.inj ran
    exact ⟨kept, le_refl _⟩
  | cons c rest ih =>
    obtain ⟨middle, first, later⟩ := Option.bind_eq_some_iff.mp ran
    obtain ⟨still, one⟩ := read_kept kept first
    obtain ⟨last, more⟩ := ih middle still later
    refine ⟨last, more.trans ?_⟩
    rw [List.length_cons]
    omega

/-- Whatever part of the input was read, the loop wrote no more than it read, and
behind `..` it stands behind a slash or at the start of the buffer. -/
theorem scan_kept {front : Id} {place : Place} {written : Id}
    (ran : scan front = some (place, written)) :
    Kept (place, written) ∧ written.length ≤ front.length := by
  obtain ⟨kept, bound⟩ := foldlM_kept front (.term, []) (place, written) rfl ran
  exact ⟨kept, by simpa using bound⟩

/-- Reading on from inside a term copies what has the shape of an identifier. -/
theorem foldlM_name (rest written : Id) (chain : rest.IsChain Follows)
    (last : rest.getLast? ≠ some '/') :
    rest.foldlM read (.name, written) = some (.name, written ++ rest) := by
  induction rest generalizing written with
  | nil => simp
  | cons c rest ih =>
    by_cases slash : c = '/'
    · subst slash
      cases rest with
      | nil => exact absurd rfl last
      | cons next later =>
        obtain ⟨follows, chain⟩ := List.isChain_cons_cons.mp chain
        obtain ⟨plain, noDot⟩ := follows rfl
        have skip : read (.slashes, written ++ ['/']) next =
            read (.name, written ++ ['/']) next := by
          rw [read, if_neg noDot, read, if_neg plain]
          exact plain
        have same := ih (written ++ ['/']) chain (by simpa using last)
        rw [List.foldlM_cons] at same
        rw [List.foldlM_cons, read, if_pos rfl, Option.bind_eq_bind, Option.bind_some,
          List.foldlM_cons, skip, same]
        simp
    · have ended : rest.getLast? ≠ some '/' := by
        cases rest with
        | nil => simp
        | cons next later => simpa using last
      rw [List.foldlM_cons, read, if_neg slash, Option.bind_eq_bind, Option.bind_some,
        ih (written ++ [c]) chain.tail ended]
      simp

/-- What has the shape of an identifier is resolved to itself. -/
theorem resolveInput_settled (id : Id) (settled : Settled id) : resolveInput id = some id := by
  cases id with
  | nil => exact settled.elim
  | cons first rest =>
    obtain ⟨noDot, chain, last⟩ := settled
    have copied : scan (first :: rest) = some (.name, first :: rest) := by
      rw [scan, List.foldlM_cons, read, if_neg noDot, Option.bind_eq_bind, Option.bind_some,
        List.nil_append, foldlM_name rest [first] chain last]
      rfl
    rw [resolveInput, copied]

/-- An identifier has the shape, and is no longer than what was resolved. -/
theorem settled_of_resolveInput {input id : Id} (resolved : resolveInput input = some id) :
    Settled id ∧ id.length ≤ input.length := by
  unfold resolveInput at resolved
  split at resolved
  · obtain rfl := Option.some.inj resolved
    exact scan_kept ‹_›
  · cases resolved

/-- What is resolved fits the buffer. -/
theorem resolveBuffer_length {current : Option Id} {request input : Id}
    (fits : resolveBuffer current request = some input) : input.length + 1 < limit := by
  have plain : (if request.length + 1 ≥ limit then none else some request) = some input →
      input.length + 1 < limit := by
    intro small
    split at small
    · cases small
    · obtain rfl := Option.some.inj small
      omega
  unfold resolveBuffer at fits
  split at fits
  · split at fits
    · split at fits
      · cases fits
      · obtain rfl := Option.some.inj fits
        have dots : "/../".toList.length = 4 := by decide
        rw [List.length_append, List.length_append, dots]
        omega
    · exact plain fits
  · exact plain fits

/-- A request that starts with no dot is its own input. -/
theorem resolveBuffer_plain (current : Option Id) {request : Id}
    (noDot : request.head? ≠ some '.') (small : request.length + 1 < limit) :
    resolveBuffer current request = some request := by
  have fits : ¬ request.length + 1 ≥ limit := not_le_of_gt small
  cases current <;> simp only [resolveBuffer, if_neg noDot, if_neg fits]

/-- A request resolves where it fits the buffer and its terms lead somewhere. -/
theorem resolveModuleId_ok_iff (current : Option Id) (request id : Id) :
    resolveModuleId current request = .ok id ↔
      ∃ input, resolveBuffer current request = some input ∧ resolveInput input = some id := by
  unfold resolveModuleId
  cases found : (resolveBuffer current request).bind resolveInput with
  | none =>
    refine ⟨fun impossible => ?_, fun ⟨input, fits, resolved⟩ => ?_⟩
    · cases impossible
    rw [fits, Option.bind_some, resolved] at found
    cases found
  | some other =>
    rw [← Option.bind_eq_some_iff, found]
    simp

/-- An identifier does not start with a dot. -/
theorem Settled.head {id : Id} (settled : Settled id) : id.head? ≠ some '.' := by
  cases id with
  | nil => exact settled.elim
  | cons first rest => simpa using settled.1

/-- What was resolved has the shape of an identifier and fits the buffer. -/
theorem settled_of_resolved {current : Option Id} {request id : Id}
    (resolved : resolveModuleId current request = .ok id) :
    Settled id ∧ id.length + 1 < limit := by
  obtain ⟨input, fits, read⟩ := (resolveModuleId_ok_iff current request id).mp resolved
  obtain ⟨settled, shorter⟩ := settled_of_resolveInput read
  have bound := resolveBuffer_length fits
  exact ⟨settled, by omega⟩

/-- An identifier is resolved to itself, whichever module asks. -/
theorem resolved_of_settled (current : Option Id) {id : Id} (settled : Settled id)
    (small : id.length + 1 < limit) : resolveModuleId current id = .ok id :=
  (resolveModuleId_ok_iff current id id).mpr
    ⟨id, resolveBuffer_plain current settled.head small, resolveInput_settled id settled⟩

/-- The identifiers that exist are the settled ones that fit the buffer, and each
of them, asked for under itself, is the same module again from everywhere. -/
theorem identifiers_are_fixed (id : Id) :
    ((∃ current request, resolveModuleId current request = .ok id) ↔
        Settled id ∧ id.length + 1 < limit) ∧
      ((∃ current request, resolveModuleId current request = .ok id) →
        ∀ other, resolveModuleId other id = .ok id) := by
  refine ⟨⟨?_, fun shape => ⟨none, id, resolved_of_settled none shape.1 shape.2⟩⟩, ?_⟩
  · rintro ⟨current, request, resolved⟩
    exact settled_of_resolved resolved
  · rintro ⟨current, request, resolved⟩ other
    obtain ⟨settled, small⟩ := settled_of_resolved resolved
    exact resolved_of_settled other settled small

/-- At every moment of a resolution both positions are inside their buffers, and
going back a term starts behind a slash or at the start, as the assertions of the
loop demand. -/
theorem resolution_stays_in_buffers (current : Option Id) (request input front rest : Id)
    (place : Place) (written : Id) (fits : resolveBuffer current request = some input)
    (split : input = front ++ rest) (ran : scan front = some (place, written)) :
    front.length < limit ∧ written.length < limit ∧
      (place = .dots → written ≠ [] → written.getLast? = some '/') := by
  obtain ⟨kept, shorter⟩ := scan_kept ran
  have bound := resolveBuffer_length fits
  rw [split, List.length_append] at bound
  refine ⟨by omega, by omega, ?_⟩
  rintro rfl some
  rcases kept with impossible | rfl | ⟨terms, -, rfl⟩
  · exact absurd impossible some
  · rfl
  · exact List.getLast?_concat

/-- In the middle of resolving `./../rss` for `plugins/autoadd`, behind the second
pair of dots. -/
theorem resolution_stays_in_buffers_witness :
    ("plugins/autoadd/../.".toList ++ "/..".toList).length < limit ∧
      ("plugins/".toList).length < limit ∧
      (Place.dots = .dots → "plugins/".toList ≠ [] → "plugins/".toList.getLast? = some '/') :=
  resolution_stays_in_buffers (some "plugins/autoadd".toList) "./../rss".toList
    "plugins/autoadd/.././../rss".toList ("plugins/autoadd/../.".toList ++ "/..".toList)
    "/rss".toList .dots "plugins/".toList (by decide) (by decide) (by decide)

end Hadouken.ModuleNames
