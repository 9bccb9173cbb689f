import Hadouken.Library.UrlEncoding

/-!
# Pushover

`pushMessage` sends the content of a form with four fields. The title and the
message go through `encodeURI`, which keeps the characters that separate the
parts of an address. Two of them have a meaning in a form: `&` ends a field, and
`+` is read as a space.

Texts have no halves of surrogate pairs, on which `encodeURI` throws.
-/

namespace Hadouken.Pushover

open UrlEncoding

section Messages

/-- The characters `encodeURI` keeps. -/
def isUnescaped (c : Char) : Bool := c.isAlphanum || ";/?:@&=+$,-_.!~*'()#".toList.contains c

/-- `encodeURI`. -/
def encodeURI (text : Text) : Text := percentEncode isUnescaped text

/-- The address of the service. -/
def url : String := "https://api.pushover.net/1/messages.json"

/-- What `http.post` is called with. -/
structure Request where
  url : String
  data : Text
  headers : List (String × String)
deriving DecidableEq

/-- What it returns. -/
structure Response where
  status : Int
  reason : String

/-- A message that was sent, and what was logged about it. -/
structure Push where
  request : Request
  errors : List String
deriving DecidableEq

/-- The form that is sent: only the title and the message are encoded. -/
def pushData (token user title message : Text) : Text :=
  "token=".toList ++ token ++ ("&user=".toList ++ user) ++
    ("&title=".toList ++ encodeURI title) ++ ("&message=".toList ++ encodeURI message)

/-- `pushMessage`. -/
def pushMessage (post : Request → Response) (token user title message : Text) : Push :=
  let request : Request := {
    url
    data := pushData token user title message
    headers := [("Content-Type", "application/x-www-form-urlencoded")] }
  let response := post request
  { request
    errors := if response.status ≠ 200 then
        ["Failed to push message to Pushover: " ++ response.reason]
      else [] }

end Messages

section Events

/-- The title and the message for a torrent's name. -/
def torrentAdded (name : Text) : Text × Text :=
  ("Torrent added".toList, "Torrent '".toList ++ name ++ "' was added.".toList)

/-- The same when it has finished. -/
def torrentFinished (name : Text) : Text × Text :=
  ("Torrent finished".toList, "Torrent '".toList ++ name ++ "' finished downloading.".toList)

/-- What `load` reads of the configuration. -/
structure Settings where
  enabled : Bool
  token : Text
  user : Text
  enabledEvents : List String

/-- What `load` leaves: handlers that take the name of a torrent, the message it
sends itself, and what it logs. -/
structure Loaded where
  handlers : List (String × (Text → Push))
  pushed : List Push
  logged : List String

/-- `load`. -/
def load (post : Request → Response) (settings : Settings) : Loaded :=
  if settings.enabled = false then ⟨[], [], []⟩
  else if settings.token = [] ∨ settings.user = [] then
    ⟨[], [], ["No token/user configured."]⟩
  else
    let push := pushMessage post settings.token settings.user
    let events := settings.enabledEvents
    { handlers :=
        (if "torrent.added" ∈ events then
            [("torrent.added", fun name => push (torrentAdded name).1 (torrentAdded name).2)]
          else []) ++
        (if "torrent.finished" ∈ events then
            [("torrent.finished",
              fun name => push (torrentFinished name).1 (torrentFinished name).2)]
          else [])
      pushed :=
        if "hadouken.loaded" ∈ events then
          [push "Hadouken loaded".toList "Hadouken just started up.".toList]
        else []
      logged :=
        ["Pushover enabled with " ++ toString events.length ++ " enabled events."] }

end Events

section Fields

/-- Letters and digits, as in the service's tokens and user keys. -/
def Alphanumeric (text : Text) : Prop := ∀ c ∈ text, c.isAlphanum = true

/-- The characters are checked one by one. -/
instance (text : Text) : Decidable (Alphanumeric text) :=
  decidable_of_iff (text.all Char.isAlphanum = true) List.all_eq_true

/-- The four fields of a message. -/
def sentFields (token user title message : Text) : List (Text × Text) :=
  [("token".toList, token), ("user".toList, user), ("title".toList, title),
    ("message".toList, message)]

/-- Neither of the characters that `encodeURI` keeps and a form gives a meaning. -/
def Unreserved (text : Text) : Prop := '&' ∉ text ∧ '+' ∉ text

/-- What `encodeURI` makes of a text is read back unless it has a plus. -/
theorem readBack_iff (text : Text) : readBack isUnescaped text = text ↔ '+' ∉ text := by
  rw [readBack_eq_iff]
  constructor
  · intro clean member
    exact clean '+' member (by decide) rfl
  · rintro absent c member _ rfl
    exact absent member

/-- Letters and digits are kept. -/
theorem isUnescaped_of_alphanumeric {text : Text} (alphanumeric : Alphanumeric text) :
    ∀ c ∈ text, isUnescaped c = true := by
  intro c member
  simp [isUnescaped, alphanumeric c member]

/-- No other character is in such a text. -/
theorem not_mem_of_alphanumeric {text : Text} (alphanumeric : Alphanumeric text) {c : Char}
    (other : c.isAlphanum = false) : c ∉ text := by
  intro member
  have same := alphanumeric c member
  simp [other] at same

/-- A text of letters and digits names a field. -/
theorem plainName_of_alphanumeric {name : Text} (alphanumeric : Alphanumeric name) :
    PlainName isUnescaped name := by
  intro c member
  refine ⟨isUnescaped_of_alphanumeric alphanumeric c member, ?_, ?_, ?_⟩
  · rintro rfl
    exact not_mem_of_alphanumeric alphanumeric (by decide) member
  · rintro rfl
    exact not_mem_of_alphanumeric alphanumeric (by decide) member
  · rintro rfl
    exact not_mem_of_alphanumeric alphanumeric (by decide) member

/-- The name of the token's field. -/
theorem plain_token : PlainName isUnescaped "token".toList :=
  plainName_of_alphanumeric (by decide)

/-- The name of the user's field. -/
theorem plain_user : PlainName isUnescaped "user".toList :=
  plainName_of_alphanumeric (by decide)

/-- The name of the title's field. -/
theorem plain_title : PlainName isUnescaped "title".toList :=
  plainName_of_alphanumeric (by decide)

/-- The name of the message's field. -/
theorem plain_message : PlainName isUnescaped "message".toList :=
  plainName_of_alphanumeric (by decide)

/-- The percent sign itself is encoded. -/
theorem escaped_percent : isUnescaped '%' = false := by decide

/-- The field of a name, as it is written. -/
def written (name : String) (value : Text) : Text :=
  name.toList ++ '=' :: percentEncode isUnescaped value

/-- The token and the user need no encoding, so that the content has one shape. -/
theorem pushData_eq {token user : Text} (alphaToken : Alphanumeric token)
    (alphaUser : Alphanumeric user) (title message : Text) :
    pushData token user title message =
      written "token" token ++ '&' :: (written "user" user ++ '&' ::
        (written "title" title ++ '&' :: written "message" message)) := by
  have first := percentEncode_eq_self (isUnescaped_of_alphanumeric alphaToken)
  have second := percentEncode_eq_self (isUnescaped_of_alphanumeric alphaUser)
  have tokenPart : "token=".toList = "token".toList ++ ['='] := by decide
  have userPart : "&user=".toList = '&' :: ("user".toList ++ ['=']) := by decide
  have titlePart : "&title=".toList = '&' :: ("title".toList ++ ['=']) := by decide
  have messagePart : "&message=".toList = '&' :: ("message".toList ++ ['=']) := by decide
  unfold pushData written encodeURI
  rw [first, second, tokenPart, userPart, titlePart, messagePart]
  simp only [List.append_assoc, List.cons_append, List.nil_append]

/-- The token and the user arrive, and the rest is parsed as it was written. -/
theorem parse_pushData (decoder : Utf8Decoder) {token user : Text}
    (alphaToken : Alphanumeric token) (alphaUser : Alphanumeric user) (title message : Text) :
    parseForm decoder (pushData token user title message) =
      ("token".toList, token) :: ("user".toList, user) ::
        parseForm decoder (written "title" title ++ '&' :: written "message" message) := by
  have first := (readBack_iff token).mpr (not_mem_of_alphanumeric alphaToken (by decide))
  have second := (readBack_iff user).mpr (not_mem_of_alphanumeric alphaUser (by decide))
  rw [pushData_eq alphaToken alphaUser, written,
    parseForm_cons decoder escaped_percent plain_token
      (not_mem_of_alphanumeric alphaToken (by decide)), first,
    written, parseForm_cons decoder escaped_percent plain_user
      (not_mem_of_alphanumeric alphaUser (by decide)), second]

/-- A field whose value holds `&` is not read with this value. -/
theorem value_whole (decoder : Utf8Decoder) {name : String}
    (plain : PlainName isUnescaped name.toList) (value tail : Text)
    (others : List (Text × Text))
    (read : parseForm decoder (written name value ++ tail) = (name.toList, value) :: others) :
    '&' ∉ value := by
  intro cut
  obtain ⟨short, rest, found, shorter⟩ :=
    parseForm_cut decoder escaped_percent (by decide) plain cut tail
  obtain ⟨rfl, _⟩ : short = value ∧ rest = others := by
    simpa using found.symm.trans read
  exact Nat.lt_irrefl _ shorter

/-- The title and the message are read as they were written exactly where neither has
an `&` or a `+`. -/
theorem parse_title_message_iff (decoder : Utf8Decoder) (title message : Text) :
    parseForm decoder (written "title" title ++ '&' :: written "message" message) =
        [("title".toList, title), ("message".toList, message)] ↔
      Unreserved title ∧ Unreserved message := by
  constructor
  · intro read
    have whole := value_whole decoder plain_title title _ _ read
    rw [written, parseForm_cons decoder escaped_percent plain_title whole] at read
    obtain ⟨first, second⟩ := List.cons.inj read
    have kept := (readBack_iff title).mp (Prod.mk.inj first).2
    have last : '&' ∉ message := by
      apply value_whole decoder plain_message message [] []
      rwa [List.append_nil]
    rw [written, parseForm_single decoder escaped_percent plain_message last] at second
    have same : readBack isUnescaped message = message := by simpa using second
    exact ⟨⟨whole, kept⟩, last, (readBack_iff message).mp same⟩
  · rintro ⟨⟨whole, kept⟩, last, same⟩
    rw [written, parseForm_cons decoder escaped_percent plain_title whole, written,
      parseForm_single decoder escaped_percent plain_message last,
      (readBack_iff title).mpr kept, (readBack_iff message).mpr same]

/-- The form is read as the four fields exactly where neither the title nor the message
has an `&` or a `+`. -/
theorem parse_pushData_iff (decoder : Utf8Decoder) (token user title message : Text)
    (alphaToken : Alphanumeric token) (alphaUser : Alphanumeric user) :
    parseForm decoder (pushData token user title message) =
        sentFields token user title message ↔
      Unreserved title ∧ Unreserved message := by
  rw [parse_pushData decoder alphaToken alphaUser, sentFields,
    ← parse_title_message_iff decoder]
  simp

/-- A name with an umlaut and the separators of an address arrives. -/
theorem parse_pushData_umlaut :
    Unreserved "Hadouken".toList ∧ Unreserved "50% für a=b?".toList ∧
      parseForm wholeDecoder
          (pushData "a1".toList "u2".toList "Hadouken".toList "50% für a=b?".toList) =
        sentFields "a1".toList "u2".toList "Hadouken".toList "50% für a=b?".toList := by
  have title : Unreserved "Hadouken".toList := by simp [Unreserved]
  have message : Unreserved "50% für a=b?".toList := by simp [Unreserved]
  refine ⟨title, message, ?_⟩
  exact (parse_pushData_iff wholeDecoder _ _ _ _ (by decide) (by decide)).mpr ⟨title, message⟩

/-- A torrent of two names joined by `&` is announced by the first. -/
theorem not_parse_pushData :
    ¬ ∀ (decoder : Utf8Decoder) (token user title message : Text),
      Alphanumeric token → Alphanumeric user →
      parseForm decoder (pushData token user title message) =
        sentFields token user title message := by
  intro sent
  have all := sent wholeDecoder "a1".toList "u2".toList (torrentAdded "a&b".toList).1
    (torrentAdded "a&b".toList).2 (by decide) (by decide)
  rw [parse_pushData wholeDecoder (by decide) (by decide), sentFields] at all
  have last := ((parse_title_message_iff wholeDecoder _ _).mp (by simpa using all)).2.1
  unfold torrentAdded at last
  exact last (by simp)

end Fields

section Announcements

variable (post : Request → Response) (settings : Settings)

/-- The texts of a torrent's events. -/
def announcements : List (Text → Text × Text) := [torrentAdded, torrentFinished]

/-- An announcement has no reserved characters but those of the name. -/
theorem unreserved_announcement_iff {announce : Text → Text × Text}
    (member : announce ∈ announcements) (name : Text) :
    Unreserved (announce name).1 ∧ Unreserved (announce name).2 ↔ Unreserved name := by
  simp only [announcements, List.mem_cons, List.not_mem_nil, or_false] at member
  rcases member with rfl | rfl
  · unfold torrentAdded Unreserved
    simp
  · unfold torrentFinished Unreserved
    simp

/-- A registered handler sends one of the announcements. -/
theorem handler_eq {event : String} {handler : Text → Push}
    (registered : (event, handler) ∈ (load post settings).handlers) :
    ∃ announce ∈ announcements, handler = fun name =>
      pushMessage post settings.token settings.user (announce name).1 (announce name).2 := by
  unfold load at registered
  by_cases off : settings.enabled = false
  · simp [off] at registered
  by_cases missing : settings.token = [] ∨ settings.user = []
  · simp [off, missing] at registered
  rw [if_neg off, if_neg missing] at registered
  rcases List.mem_append.mp registered with added | finished
  · split at added
    · obtain ⟨rfl, rfl⟩ := Prod.mk.inj (List.mem_singleton.mp added)
      exact ⟨torrentAdded, by simp [announcements], rfl⟩
    · simp at added
  · split at finished
    · obtain ⟨rfl, rfl⟩ := Prod.mk.inj (List.mem_singleton.mp finished)
      exact ⟨torrentFinished, by simp [announcements], rfl⟩
    · simp at finished

/-- The announcement of a torrent is read as it was written exactly where its name has
neither of the two characters. -/
theorem handler_whole_iff (decoder : Utf8Decoder) (alphaToken : Alphanumeric settings.token)
    (alphaUser : Alphanumeric settings.user) {event : String} {handler : Text → Push}
    (registered : (event, handler) ∈ (load post settings).handlers) :
    ∃ announce ∈ announcements, ∀ name,
      (parseForm decoder (handler name).request.data =
          sentFields settings.token settings.user (announce name).1 (announce name).2 ↔
        Unreserved name) := by
  obtain ⟨announce, member, rfl⟩ := handler_eq post settings registered
  refine ⟨announce, member, fun name => ?_⟩
  have data : (pushMessage post settings.token settings.user (announce name).1
      (announce name).2).request.data =
        pushData settings.token settings.user (announce name).1 (announce name).2 := rfl
  rw [data, parse_pushData decoder alphaToken alphaUser, sentFields,
    ← unreserved_announcement_iff member name, ← parse_title_message_iff decoder]
  simp

end Announcements

end Hadouken.Pushover
