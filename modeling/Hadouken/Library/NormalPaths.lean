import Hadouken.Library.LexicalPaths

/-!
# Names below normalised paths

Normalisation removes what is redundant in a path. A name at the end of a path is
not: it stays the last one. Below a normalised path that ends in a name, another
name adds nothing redundant, so that normalising changes nothing any more and the
text of the longer path is known.
-/

namespace Hadouken.LexicalPaths

/-- The four conditions are checked. -/
instance (segment : Segment) : Decidable (Named segment) := by
  unfold Named; infer_instance

/-- A normalisation that keeps names. -/
structure NameNormalizer extends Normalizer where
  name_last : ∀ base name, Named name → name <:+ normalize (append base name)
  normalize_below : ∀ base directory name, Named directory → Named name →
    normalize (append (normalize (append base directory)) name) =
      append (normalize (append base directory)) name
  normalize_segments : ∀ path, parent ∉ segments path →
    segments (normalize path) = segments path

/-- A name has no slash. -/
theorem Named.not_slash {name : Segment} (named : Named name) : '/' ∉ name := named.2.2.2

/-- A name is not empty. -/
theorem Named.ne_nil {name : Segment} (named : Named name) : name ≠ [] := named.1

/-- Behind a name a separator is needed. -/
theorem append_of_suffix {path directory name : List Char} (last : directory <:+ path)
    (above : Named directory) (below : Named name) : append path name = path ++ '/' :: name := by
  obtain ⟨front, rfl⟩ := last
  have outer : (front ++ directory).getLast? ≠ some '/' := by
    rw [List.getLast?_append_of_ne_nil _ above.ne_nil]
    intro slash
    exact above.not_slash (List.mem_of_getLast? slash)
  have inner : name.head? ≠ some '/' := fun slash =>
    below.not_slash (List.mem_of_head? slash)
  have some : front ++ directory ≠ [] := List.append_ne_nil_of_right_ne_nil _ above.ne_nil
  rw [append, if_neg some, if_neg below.ne_nil, if_neg (by simp only [outer, inner, or_self,
    not_false_eq_true])]

/-- A name is one segment. -/
theorem segments_name {name : Segment} (named : Named name) : segments name = [name] := by
  have whole := segments_intercalate [name] (by
    intro segment member
    rw [List.mem_singleton.mp member]
    exact ⟨named.1, named.2.1, named.2.2.2⟩)
  simpa using whole

/-- A name leads one level down. -/
theorem locate_append_name (base : List Char) {name : Segment} (named : Named name) :
    locate (append base name) =
      { locate base with names := (locate base).names ++ [name] } := by
  have step (location : Location) : location.follow [name] =
      { location with names := location.names ++ [name] } :=
    Location.follow_names location [name] (by
      intro segment member
      rwa [List.mem_singleton.mp member])
  have starts : rooted (append base name) = rooted base := by
    by_cases empty : base = []
    · subst empty
      have free : name.head? ≠ some '/' := fun slash =>
        named.not_slash (List.mem_of_head? slash)
      simp [append, rooted, free]
    · exact rooted_append base name empty
  rw [locate, segments_append, segments_name named, Location.follow_append, step, starts]
  rfl

/-- The last name stands behind a slash. -/
theorem intercalate_concat (path : List Segment) (name : Segment) (some : path ≠ []) :
    ['/'].intercalate (path ++ [name]) = ['/'].intercalate path ++ '/' :: name := by
  induction path with
  | nil => exact absurd rfl some
  | cons first rest ih =>
    cases rest with
    | nil => simp
    | cons second others =>
      have inner := ih (by simp)
      simp only [List.cons_append] at inner ⊢
      rw [List.intercalate_cons_cons, inner, List.intercalate_cons_cons]
      simp

/-- It stands at the end. -/
theorem suffix_intercalate (path : List Segment) (name : Segment) :
    name <:+ ['/'].intercalate (path ++ [name]) := by
  by_cases empty : path = []
  · subst empty
    simp
  · rw [intercalate_concat path name empty]
    exact ⟨['/'].intercalate path ++ ['/'], by simp⟩

/-- The text of a location that was reached by a name. -/
theorem text_name (location : Location) {names : List Segment} {name : Segment}
    (named : Named name) (reached : location.names = names ++ [name]) :
    location.text = (if location.rooted then ['/'] else []) ++
      ['/'].intercalate (List.replicate location.ups parent ++ names ++ [name]) := by
  have some : ['/'].intercalate (List.replicate location.ups parent ++ names ++ [name]) ≠ [] := by
    intro empty
    have last := suffix_intercalate (List.replicate location.ups parent ++ names) name
    rw [empty] at last
    exact named.ne_nil (List.suffix_nil.mp last)
  rw [Location.text, reached, ← List.append_assoc, if_neg some]
  split <;> rfl

/-- The text of a location one level further down. -/
theorem text_below {location : Location} {names : List Segment} {directory name : Segment}
    (above : Named directory) (below : Named name)
    (reached : location.names = names ++ [directory]) :
    ({ location with names := location.names ++ [name] } : Location).text =
      location.text ++ '/' :: name := by
  rw [text_name _ below rfl, text_name location above reached, reached,
    intercalate_concat _ _ (by simp)]
  simp

/-- The text of a location has its names for segments. -/
theorem segments_text {location : Location} (plain : location.Plain) (level : location.ups = 0) :
    segments location.text = location.names := by
  have read := segments_intercalate location.names fun name member =>
    ⟨(plain.named name member).1, (plain.named name member).2.1, (plain.named name member).2.2.2⟩
  simp only [Location.text, level, List.replicate_zero, List.nil_append]
  split
  · have slash := segments_append_cons [] (['/'].intercalate location.names)
    rwa [List.nil_append, segments_nil, List.nil_append, read] at slash
  · split
    · rename_i empty
      rw [empty, segments_nil] at read
      rw [← read]
      decide
    · exact read

/-- Without `..` a path leads down all of its segments. -/
theorem locate_of_down {path : List Char} (down : parent ∉ segments path) :
    locate path = ⟨rooted path, 0, segments path⟩ := by
  rw [locate, Location.follow_names]
  · simp
  · intro segment member
    apply named_of_mem_segments path segment member
    rintro rfl
    exact down member

/-- A text without a slash occurs in a path where it occurs in a segment of it. -/
theorem infix_iff_segment {pattern : List Char} (free : '/' ∉ pattern) (long : 1 < pattern.length)
    (path : List Char) :
    pattern <:+: path ↔ ∃ segment ∈ segments path, pattern <:+: segment := by
  rw [Separation.infix_iff_splitOn free]
  constructor
  · rintro ⟨part, member, found⟩
    refine ⟨part, List.mem_filter.mpr ⟨member, ?_⟩, found⟩
    have longer := found.length_le
    simp only [ne_eq, decide_eq_true_eq]
    constructor
    · rintro rfl
      simp only [List.length_nil] at longer
      omega
    · rintro rfl
      simp only [here, List.length_cons, List.length_nil] at longer
      omega
  · rintro ⟨segment, member, found⟩
    exact ⟨segment, (List.mem_filter.mp member).1, found⟩

/-- A normal path is the text of its location. -/
theorem spelling_normalize (path : List Char) : spelling.normalize path = (locate path).text :=
  rfl

/-- Spelling out where a path leads keeps names. -/
def spellingNames : NameNormalizer where
  toNormalizer := spelling
  name_last base name named := by
    rw [spelling_normalize, locate_append_name base named, text_name _ named rfl]
    exact (suffix_intercalate _ name).trans (List.suffix_append _ _)
  normalize_below base directory name above below := by
    have reached := locate_append_name base above
    have names : (locate (append base directory)).names =
        (locate base).names ++ [directory] := by rw [reached]
    have last : directory <:+ (locate (append base directory)).text := by
      rw [text_name _ above names]
      exact (suffix_intercalate _ directory).trans (List.suffix_append _ _)
    simp only [spelling_normalize]
    rw [locate_append_name _ below, locate_text _ (plain_locate _), text_below above below names,
      append_of_suffix last above below]
  normalize_segments path down := by
    have level : (locate path).ups = 0 := by rw [locate_of_down down]
    rw [spelling_normalize, segments_text (plain_locate path) level, locate_of_down down]

end Hadouken.LexicalPaths
