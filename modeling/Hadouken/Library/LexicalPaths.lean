import Hadouken.Library.Separation
import Mathlib.Data.List.Infix

/-!
# Paths read lexically

A path is a text of segments between slashes. Read without a file system it
names a location: from the root or from the working directory, some levels up
and then down a list of names. Empty segments and `.` stand still and `..` goes
up one level, which at the root has no effect.

A relative path moves any location, and moving composes: this reduces whether a
joined path stays below its base to how far its second part climbs.
-/

namespace Hadouken.LexicalPaths

/-- A part of a path. -/
abbrev Segment := List Char

/-- The directory itself. -/
def here : Segment := ['.']

/-- The directory above. -/
def parent : Segment := ['.', '.']

/-- The segments that matter, in their order. -/
def segments (path : List Char) : List Segment :=
  (path.splitOn '/').filter fun segment => segment ≠ [] ∧ segment ≠ here

/-- The path starts at the root. -/
def rooted (path : List Char) : Bool := path.head? == some '/'

/-- Where a path leads: up from its start, and then down the names. -/
structure Location where
  rooted : Bool
  ups : Nat
  names : List Segment
deriving DecidableEq

/-- Go one level up. -/
def Location.up (location : Location) : Location :=
  if location.names = [] then
    if location.rooted then location else { location with ups := location.ups + 1 }
  else { location with names := location.names.dropLast }

/-- Follow one segment. -/
def Location.step (location : Location) (segment : Segment) : Location :=
  if segment = parent then location.up
  else { location with names := location.names ++ [segment] }

/-- Follow segments from a location. -/
def Location.follow (location : Location) (path : List Segment) : Location :=
  path.foldl Location.step location

/-- Where a relative path leads from where it is read. -/
def relative (path : List Char) : Location := Location.follow ⟨false, 0, []⟩ (segments path)

/-- Lexical resolution of a path. -/
def locate (path : List Char) : Location := Location.follow ⟨rooted path, 0, []⟩ (segments path)

/-- Go up some levels, and then down some names. -/
def Location.move (location move : Location) : Location where
  rooted := location.rooted
  ups :=
    if location.rooted then location.ups
    else location.ups + (move.ups - location.names.length)
  names := location.names.take (location.names.length - move.ups) ++ move.names

/-- The location lies at the base or below it. -/
def Within (base location : Location) : Prop :=
  location.rooted = base.rooted ∧ location.ups = base.ups ∧ base.names <+: location.names

/-- Both are compared segment by segment. -/
instance (base location : Location) : Decidable (Within base location) := by
  unfold Within; infer_instance

/-- The move comes back to the directories it climbs out of: it names them again
in their order. At the root, climbing further than the root counts as climbing
to it. -/
def Location.Returns (base move : Location) : Prop :=
  (base.rooted = true ∨ move.ups ≤ base.names.length) ∧
    base.names.drop (base.names.length - move.ups) <+: move.names

/-- The way is followed and compared. -/
instance (base move : Location) : Decidable (base.Returns move) := by
  unfold Location.Returns; infer_instance

/-- Join two paths with a separator, where none is there already. An empty path
is the other one, and a leading slash of the second path is a separator. -/
def append (base path : List Char) : List Char :=
  if base = [] then path
  else if path = [] then base
  else if base.getLast? = some '/' ∨ path.head? = some '/' then base ++ path
  else base ++ '/' :: path

/-- Going up leaves the root where it is. -/
@[simp] theorem Location.rooted_up (location : Location) :
    location.up.rooted = location.rooted := by
  unfold Location.up
  split
  · split <;> rfl
  · rfl

/-- So does following a path. -/
@[simp] theorem Location.rooted_follow (location : Location) (path : List Segment) :
    (location.follow path).rooted = location.rooted := by
  induction path generalizing location with
  | nil => rfl
  | cons segment rest ih =>
    rw [Location.follow, List.foldl_cons, ← Location.follow, ih, Location.step]
    split
    · exact Location.rooted_up location
    · rfl

/-- Paths are followed one after the other. -/
theorem Location.follow_append (location : Location) (first second : List Segment) :
    location.follow (first ++ second) = (location.follow first).follow second :=
  List.foldl_append

/-- Standing still moves no location. -/
theorem Location.move_still (location : Location) : location.move ⟨false, 0, []⟩ = location := by
  simp [Location.move]

/-- Following one more segment after a move is the move that follows it. -/
theorem Location.move_step (base move : Location) (segment : Segment)
    (free : move.rooted = false) :
    (base.move move).step segment = base.move (move.step segment) := by
  by_cases goesUp : segment = parent
  · rw [Location.step, Location.step, if_pos goesUp, if_pos goesUp]
    by_cases down : move.names = []
    · have climbed : move.up = { move with ups := move.ups + 1 } := by
        simp [Location.up, down, free]
      rw [climbed]
      by_cases top : base.names.length ≤ move.ups
      · have outside : (base.move move).names = [] := by
          simp [Location.move, down, Nat.sub_eq_zero_of_le top]
        have outside' : base.names.length - (move.ups + 1) = 0 := by omega
        rw [Location.up, if_pos outside]
        cases start : base.rooted with
        | true => simp [Location.move, start, down, outside', Nat.sub_eq_zero_of_le top]
        | false =>
          simp only [Location.move, start, down, outside', Nat.sub_eq_zero_of_le top,
            Bool.false_eq_true, if_false, List.take_zero, List.append_nil, Location.mk.injEq,
            true_and, and_true]
          omega
      · have inside : (base.move move).names ≠ [] := by
          simp [Location.move, down, ← List.length_eq_zero_iff]
          omega
        have fewer : base.names.length - (move.ups + 1) = base.names.length - move.ups - 1 := by
          omega
        have levels : move.ups + 1 - base.names.length = 0 := by omega
        have levels' : move.ups - base.names.length = 0 := by omega
        rw [Location.up, if_neg inside]
        simp [Location.move, down, fewer, levels, levels', List.dropLast_eq_take,
          List.take_take]
    · have inside : (base.move move).names ≠ [] := by simp [Location.move, down]
      have climbed : move.up = { move with names := move.names.dropLast } := by
        simp [Location.up, down]
      rw [climbed, Location.up, if_neg inside]
      simp [Location.move, List.dropLast_append_of_ne_nil, down]
  · simp [Location.step, goesUp, Location.move]

/-- Following a path from a moved location is the move that follows it. -/
theorem Location.move_follow (base move : Location) (path : List Segment)
    (free : move.rooted = false) :
    (base.move move).follow path = base.move (move.follow path) := by
  induction path generalizing move with
  | nil => rfl
  | cons segment rest ih =>
    have stillFree : (move.step segment).rooted = false := by
      rw [← free]
      exact Location.rooted_follow move [segment]
    rw [Location.follow, List.foldl_cons, Location.move_step base move segment free]
    exact ih (move.step segment) stillFree

/-- Following a relative path is one move. -/
theorem Location.follow_eq_move (location : Location) (path : List Char) :
    location.follow (segments path) = location.move (relative path) := by
  have moved := Location.move_follow location ⟨false, 0, []⟩ (segments path) rfl
  rwa [Location.move_still] at moved

/-- The segments on both sides of a separator. -/
theorem segments_append_cons (first second : List Char) :
    segments (first ++ '/' :: second) = segments first ++ segments second := by
  rw [segments, List.splitOn_append_cons_self, List.filter_append]
  rfl

/-- An empty path has no segments. -/
theorem segments_nil : segments [] = [] := by decide

/-- Joining puts the segments one after the other. -/
theorem segments_append (base path : List Char) :
    segments (append base path) = segments base ++ segments path := by
  unfold append
  split
  · rename_i empty
    rw [empty, segments_nil, List.nil_append]
  · split
    · rename_i empty
      rw [empty, segments_nil, List.append_nil]
    · split
      · rename_i separated
        rcases separated with ends | starts
        · obtain ⟨front, rfl⟩ := List.getLast?_eq_some_iff.mp ends
          rw [segments_append_cons, List.append_assoc, List.singleton_append, segments_append_cons,
            segments_nil, List.append_nil]
        · obtain ⟨rest, rfl⟩ := List.head?_eq_some_iff.mp starts
          have own := segments_append_cons [] rest
          rw [List.nil_append, segments_nil, List.nil_append] at own
          rw [segments_append_cons, own]
      · exact segments_append_cons base path

/-- A joined path starts where its base does. -/
theorem rooted_append (base path : List Char) (some : base ≠ []) :
    rooted (append base path) = rooted base := by
  obtain ⟨first, rest, rfl⟩ := List.exists_cons_of_ne_nil some
  unfold append
  split
  · contradiction
  · split
    · rfl
    · split <;> rfl

/-- The letters of a joined path. -/
theorem mem_of_mem_append (base path : List Char) (c : Char) (member : c ∈ append base path) :
    c ∈ base ∨ c ∈ path ∨ c = '/' := by
  unfold append at member
  split at member
  · exact .inr (.inl member)
  · split at member
    · exact .inl member
    · split at member
      · rcases List.mem_append.mp member with front | back
        · exact .inl front
        · exact .inr (.inl back)
      · simp only [List.mem_append, List.mem_cons] at member
        tauto

/-- Where a joined path leads: from its base, by the move of its second part. -/
theorem locate_append (base path : List Char) (some : base ≠ []) :
    locate (append base path) = (locate base).move (relative path) := by
  rw [locate, rooted_append base path some, segments_append, Location.follow_append,
    Location.follow_eq_move]
  rfl

/-- A move stays below a location exactly when it returns to the directories it
climbs out of. -/
theorem within_move_iff (base move : Location) :
    Within base (base.move move) ↔ base.Returns move := by
  have cut : base.names <+: base.names.take (base.names.length - move.ups) ++ move.names ↔
      base.names.drop (base.names.length - move.ups) <+: move.names := by
    conv_lhs =>
      lhs
      rw [← List.take_append_drop (base.names.length - move.ups) base.names]
    exact List.prefix_append_right_inj _
  cases start : base.rooted with
  | true => simp [Within, Location.move, Location.Returns, start, cut]
  | false =>
    simp only [Within, Location.move, Location.Returns, start, cut, Bool.false_eq_true, if_false,
      true_and, false_or]
    refine and_congr_left fun _ => ?_
    omega

/-- The path does not leave the directory: it names again what it climbs out of.
Below an empty directory it is not absolute. -/
def Stays (directory path : List Char) : Prop :=
  (directory = [] → rooted path = false) ∧ (locate directory).Returns (relative path)

/-- The two locations are compared. -/
instance (directory path : List Char) : Decidable (Stays directory path) := by
  unfold Stays; infer_instance

/-- A joined path leads to below its base exactly when its second part stays
there. -/
theorem within_append_iff (base path : List Char) :
    Within (locate base) (locate (append base path)) ↔ Stays base path := by
  unfold Stays
  by_cases empty : base = []
  · subst empty
    have own : append [] path = path := rfl
    have start : locate [] = ⟨false, 0, []⟩ := by decide
    have returns : Location.Returns ⟨false, 0, []⟩ (relative path) ↔ (relative path).ups = 0 := by
      simp [Location.Returns]
    rw [own, start, returns]
    cases free : rooted path with
    | true => simp [Within, locate, free]
    | false => simp [Within, locate, relative, free]
  · rw [locate_append base path empty, within_move_iff]
    exact ⟨fun returns => ⟨fun none => absurd none empty, returns⟩, And.right⟩

/-- A segment that names an entry of the directory it is read in. -/
def Named (segment : Segment) : Prop :=
  segment ≠ [] ∧ segment ≠ here ∧ segment ≠ parent ∧ '/' ∉ segment

/-- The locations that paths lead to. -/
structure Location.Plain (location : Location) : Prop where
  named : ∀ name ∈ location.names, Named name
  atRoot : location.rooted = true → location.ups = 0

/-- The path that spells a location out. -/
def Location.text (location : Location) : List Char :=
  let spelled := ['/'].intercalate (List.replicate location.ups parent ++ location.names)
  if location.rooted then '/' :: spelled else if spelled = [] then here else spelled

/-- Going up leaves plain locations plain. -/
theorem Location.plain_up (location : Location) (plain : location.Plain) : location.up.Plain := by
  unfold Location.up
  split
  · split
    · exact plain
    · rename_i free
      exact ⟨plain.named, fun start => absurd start free⟩
  · refine ⟨fun name member => plain.named name (List.dropLast_subset _ member), plain.atRoot⟩

/-- A segment of a path names an entry, unless it goes up. -/
theorem named_of_mem_segments (path : List Char) (segment : Segment)
    (member : segment ∈ segments path) (other : segment ≠ parent) : Named segment := by
  obtain ⟨part, kept⟩ := List.mem_filter.mp member
  simp only [ne_eq, decide_eq_true_eq] at kept
  refine ⟨kept.1, kept.2, other, ?_⟩
  exact Separation.not_mem_of_mem_splitOn '/' path segment part

/-- So does following a path. -/
theorem Location.plain_follow (location : Location) (path : List Segment)
    (plain : location.Plain)
    (named : ∀ segment ∈ path, segment ≠ parent → Named segment) :
    (location.follow path).Plain := by
  induction path generalizing location with
  | nil => exact plain
  | cons segment rest ih =>
    refine ih (location.step segment) ?_ fun other member =>
      named other (List.mem_cons_of_mem _ member)
    unfold Location.step
    split
    · exact Location.plain_up location plain
    · rename_i other
      refine ⟨fun name member => ?_, plain.atRoot⟩
      rcases List.mem_append.mp member with before | last
      · exact plain.named name before
      · rw [List.mem_singleton.mp last]
        exact named segment List.mem_cons_self other

/-- Every path leads to a plain location. -/
theorem plain_locate (path : List Char) : (locate path).Plain := by
  apply Location.plain_follow
  · exact ⟨by simp, fun _ => rfl⟩
  · exact fun segment member other => named_of_mem_segments path segment member other

/-- Names are followed one by one. -/
theorem Location.follow_names (location : Location) (path : List Segment)
    (named : ∀ name ∈ path, Named name) :
    location.follow path = { location with names := location.names ++ path } := by
  induction path generalizing location with
  | nil => simp [Location.follow]
  | cons name rest ih =>
    have other : name ≠ parent := (named name List.mem_cons_self).2.2.1
    rw [Location.follow, List.foldl_cons, Location.step, if_neg other, ← Location.follow,
      ih _ fun other member => named other (List.mem_cons_of_mem _ member)]
    simp

/-- Only going up, a relative path goes up so many times. -/
theorem Location.follow_parents (count ups : Nat) :
    Location.follow ⟨false, ups, []⟩ (List.replicate count parent) = ⟨false, ups + count, []⟩ := by
  induction count generalizing ups with
  | zero => rfl
  | succ count ih =>
    rw [List.replicate_succ, Location.follow, List.foldl_cons, ← Location.follow]
    have climbed : Location.step ⟨false, ups, []⟩ parent = ⟨false, ups + 1, []⟩ := rfl
    rw [climbed, ih]
    congr 1
    omega

/-- The segments that spell a location out lead to it. -/
theorem Location.follow_spelled (location : Location) (plain : location.Plain) :
    Location.follow ⟨location.rooted, 0, []⟩
      (List.replicate location.ups parent ++ location.names) = location := by
  obtain ⟨start, ups, names⟩ := location
  rw [Location.follow_append]
  cases start with
  | true =>
    obtain rfl : ups = 0 := plain.atRoot rfl
    exact Location.follow_names ⟨true, 0, []⟩ names plain.named
  | false =>
    rw [Location.follow_parents, Location.follow_names _ names plain.named]
    simp

/-- Spelled segments are read back from their text. -/
theorem segments_intercalate (path : List Segment) (spelled : ∀ segment ∈ path,
    segment ≠ [] ∧ segment ≠ here ∧ '/' ∉ segment) :
    segments (['/'].intercalate path) = path := by
  by_cases empty : path = []
  · subst empty
    exact segments_nil
  · rw [segments, List.splitOn_intercalate '/' (fun segment member => (spelled segment member).2.2)
      empty, List.filter_eq_self]
    intro segment member
    obtain ⟨some, moves, _⟩ := spelled segment member
    simp [some, moves]

/-- Spelled segments make a path that starts with their first one. -/
theorem rooted_intercalate (path : List Segment) (spelled : ∀ segment ∈ path,
    segment ≠ [] ∧ '/' ∉ segment) : rooted (['/'].intercalate path) = false := by
  cases path with
  | nil => rfl
  | cons segment rest =>
    obtain ⟨some, whole⟩ := spelled segment List.mem_cons_self
    obtain ⟨c, letters, rfl⟩ := List.exists_cons_of_ne_nil some
    have plain : c ≠ '/' := fun slash => whole (slash ▸ List.mem_cons_self)
    cases rest with
    | nil => simp [rooted, plain]
    | cons second others => simp [rooted, List.intercalate_cons_cons, plain]

/-- The text of a location leads to it. -/
theorem locate_text (location : Location) (plain : location.Plain) :
    locate location.text = location := by
  have spelled : ∀ segment ∈ List.replicate location.ups parent ++ location.names,
      segment ≠ [] ∧ segment ≠ here ∧ '/' ∉ segment := by
    intro segment member
    rcases List.mem_append.mp member with goesUp | name
    · rw [List.eq_of_mem_replicate goesUp]
      decide
    · obtain ⟨some, moves, _, whole⟩ := plain.named segment name
      exact ⟨some, moves, whole⟩
  have read := segments_intercalate _ spelled
  have followed := Location.follow_spelled location plain
  cases start : location.rooted with
  | true =>
    have slash := segments_append_cons []
      (['/'].intercalate (List.replicate location.ups parent ++ location.names))
    rw [List.nil_append, segments_nil, List.nil_append, read] at slash
    have atRoot : rooted ('/' :: ['/'].intercalate
        (List.replicate location.ups parent ++ location.names)) = true := rfl
    simp only [Location.text, start, if_true]
    rw [locate, atRoot, slash, ← start, followed]
  | false =>
    simp only [Location.text, start, Bool.false_eq_true, if_false]
    split
    · rename_i empty
      rw [empty, segments_nil] at read
      rw [← read, start] at followed
      rw [← followed]
      decide
    · have free := rooted_intercalate _ fun segment member =>
        ⟨(spelled segment member).1, (spelled segment member).2.2⟩
      rw [locate, free, read, ← start, followed]

/-- The names of a location reached are those it had and those of the path. -/
theorem Location.names_follow (location : Location) (path : List Segment) (name : Segment)
    (member : name ∈ (location.follow path).names) : name ∈ location.names ∨ name ∈ path := by
  induction path generalizing location with
  | nil => exact .inl member
  | cons segment rest ih =>
    rcases ih (location.step segment) member with before | later
    · unfold Location.step Location.up at before
      split at before
      · split at before
        · split at before <;> exact .inl before
        · exact .inl (List.dropLast_subset _ before)
      · rcases List.mem_append.mp before with old | last
        · exact .inl old
        · exact .inr (List.mem_cons.mpr (.inl (List.mem_singleton.mp last)))
    · exact .inr (List.mem_cons_of_mem _ later)

/-- A joined path has slashes and the characters of its segments. -/
theorem mem_intercalate (c : Char) (path : List Segment)
    (member : c ∈ ['/'].intercalate path) : c = '/' ∨ ∃ segment ∈ path, c ∈ segment := by
  induction path with
  | nil => simp at member
  | cons first rest ih =>
    cases rest with
    | nil => exact .inr ⟨first, List.mem_cons_self, by simpa using member⟩
    | cons second others =>
      rw [List.intercalate_cons_cons] at member
      simp only [List.append_assoc, List.mem_append, List.mem_singleton] at member
      rcases member with own | slash | later
      · exact .inr ⟨first, List.mem_cons_self, own⟩
      · exact .inl slash
      · rcases ih later with slash | ⟨segment, inside, letter⟩
        · exact .inl slash
        · exact .inr ⟨segment, List.mem_cons_of_mem _ inside, letter⟩

/-- Spelling out where a path leads adds no letters besides dots and slashes. -/
theorem mem_text_locate (path : List Char) (c : Char) (member : c ∈ (locate path).text) :
    c ∈ path ∨ c = '.' ∨ c = '/' := by
  have spelled : c ∈ ['/'].intercalate
      (List.replicate (locate path).ups parent ++ (locate path).names) →
      c ∈ path ∨ c = '.' ∨ c = '/' := by
    intro inside
    rcases mem_intercalate c _ inside with slash | ⟨segment, own, letter⟩
    · exact .inr (.inr slash)
    · rcases List.mem_append.mp own with goesUp | name
      · rw [List.eq_of_mem_replicate goesUp] at letter
        simp only [parent, List.mem_cons, List.not_mem_nil, or_false, or_self] at letter
        exact .inr (.inl letter)
      · rcases Location.names_follow _ _ _ name with none | part
        · cases none
        · have kept := (List.mem_filter.mp part).1
          exact .inl (Separation.subset_of_mem_splitOn '/' path segment kept letter)
  simp only [Location.text] at member
  split at member
  · rcases List.mem_cons.mp member with slash | inside
    · exact .inr (.inr slash)
    · exact spelled inside
  · split at member
    · exact .inr (.inl (List.mem_singleton.mp member))
    · exact spelled member

/-- A normalisation of paths: the text it makes leads to the same place, and has
no letters of its own besides dots and slashes. -/
structure Normalizer where
  normalize : List Char → List Char
  locate_normalize : ∀ path, locate (normalize path) = locate path
  mem_normalize : ∀ path, ∀ c ∈ normalize path, c ∈ path ∨ c = '.' ∨ c = '/'

/-- The normalisation that spells out where a path leads. -/
def spelling : Normalizer where
  normalize path := (locate path).text
  locate_normalize path := locate_text (locate path) (plain_locate path)
  mem_normalize := mem_text_locate

example : spelling.normalize "/srv/./media/../x//y".toList = "/srv/x/y".toList := by decide

end Hadouken.LexicalPaths
