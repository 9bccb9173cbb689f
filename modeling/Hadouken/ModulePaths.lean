import Hadouken.Library.LexicalPaths
import Hadouken.ModuleNames

/-!
# Where module identifiers lead

Read as a path, the identifier a request is resolved to leads where the request
itself leads from the directory of the module that asks, and it never climbs.
Below the script root it therefore names a file below the script root, whatever
was asked for. A request that starts with a slash is copied up to its second
slash without a look at dots, so that only its first term can hold any.
-/

namespace Hadouken.ModulePaths

open LexicalPaths ModuleNames

/-- No segment starts with a dot. -/
def Dotless (path : List Char) : Prop := ∀ segment ∈ path.splitOn '/', segment.head? ≠ some '.'

/-- Where no dot is behind a slash or in front, no segment starts with one. -/
theorem dotless_of_chain (path : List Char) (start : path.head? ≠ some '.')
    (chain : path.IsChain Follows) : Dotless path := by
  intro segment member
  generalize split : path.splitOn '/' = parts at member
  induction parts generalizing path with
  | nil => cases member
  | cons first others ih =>
    obtain ⟨-, ⟨rfl, rfl⟩ | ⟨rest, rfl, later⟩⟩ :=
      (Separation.splitOn_eq_cons_iff '/' path first others).mp split
    · rw [List.mem_singleton.mp member]
      exact start
    · rcases List.mem_cons.mp member with rfl | inside
      · cases segment with
        | nil => simp
        | cons c letters => simpa using start
      · have behind : ('/' :: rest).IsChain Follows := (List.isChain_append.mp chain).2.1
        refine ih rest ?_ behind.tail later inside
        cases rest with
        | nil => simp
        | cons c more =>
          have follows := (List.isChain_cons_cons.mp behind).1
          simpa using (follows rfl).2

/-- No segment of an identifier starts with a dot, save the one behind a leading
slash. -/
theorem dotless_of_settled {id : List Char} (settled : Settled id)
    (plain : ∀ rest, id = '/' :: rest → rest.head? ≠ some '.') : Dotless id := by
  cases id with
  | nil => exact settled.elim
  | cons first rest =>
    obtain ⟨noDot, chain, -⟩ := settled
    by_cases slash : first = '/'
    · subst slash
      intro segment member
      have cut : ('/' :: rest).splitOn '/' = [].splitOn '/' ++ rest.splitOn '/' :=
        List.splitOn_append_cons_self [] rest
      rw [cut] at member
      rcases List.mem_append.mp member with own | behind
      · rw [List.splitOn_nil] at own
        rw [List.mem_singleton.mp own]
        simp
      · exact dotless_of_chain rest (plain rest rfl) chain segment behind
    · refine dotless_of_chain _ (by simpa using noDot) ?_
      cases rest with
      | nil => exact List.isChain_singleton first
      | cons second more =>
        exact List.isChain_cons_cons.mpr ⟨fun same => absurd same slash, chain⟩

/-- Such segments name entries. -/
theorem Dotless.named {path : List Char} (dotless : Dotless path) :
    ∀ segment ∈ segments path, Named segment := by
  intro segment member
  refine named_of_mem_segments path segment member ?_
  rintro rfl
  exact dotless parent (List.mem_filter.mp member).1 rfl

/-- Where the segments of a text lead from the place it is read at. -/
theorem Dotless.follow {path : List Char} (dotless : Dotless path) (location : Location) :
    location.follow (segments path) =
      { location with names := location.names ++ segments path } :=
  Location.follow_names location (segments path) dotless.named

/-- A text that ends where a term may start. -/
def Ended (path : List Char) : Prop := path = [] ∨ path.getLast? = some '/'

/-- Behind a slash a term may start. -/
theorem ended_concat (path : List Char) : Ended (path ++ ['/']) := .inr List.getLast?_concat

/-- There the segments of both parts are those of the whole. -/
theorem segments_ended {path : List Char} (ended : Ended path) (rest : List Char) :
    segments (path ++ rest) = segments path ++ segments rest := by
  rcases ended with rfl | last
  · rw [List.nil_append, segments_nil, List.nil_append]
  · obtain ⟨front, rfl⟩ := List.getLast?_eq_some_iff.mp last
    have own : segments (front ++ ['/']) = segments front := by
      rw [segments_append_cons, segments_nil, List.append_nil]
    rw [own, List.append_assoc, List.singleton_append, segments_append_cons]

/-- A slash at the end adds no segment. -/
theorem segments_concat (path : List Char) : segments (path ++ ['/']) = segments path := by
  rw [segments_append_cons, segments_nil, List.append_nil]

/-- The end of an open text is a name that going back removes. -/
theorem segments_backtrack {terms : List Char} (dotless : Dotless terms)
    (ended : terms.getLast? ≠ some '/') (some : terms ≠ []) :
    segments (backtrack (terms ++ ['/'])) = (segments terms).dropLast ∧
      segments terms ≠ [] := by
  have back : backtrack (terms ++ ['/']) = terms.rdropWhile (· ≠ '/') := by
    rw [backtrack, List.dropLast_concat]
  have parts : terms.rdropWhile (· ≠ '/') ++ terms.rtakeWhile (· ≠ '/') = terms :=
    List.rdropWhile_append_rtakeWhile
  have plain : '/' ∉ terms.rtakeWhile (· ≠ '/') := by
    intro slash
    simpa using List.mem_rtakeWhile_imp slash
  have opened : Ended (terms.rdropWhile (· ≠ '/')) := by
    by_cases empty : terms.rdropWhile (· ≠ '/') = []
    · exact .inl empty
    · have last := List.rdropWhile_last_not (· ≠ '/') terms empty
      refine .inr ?_
      rw [List.getLast?_eq_getLast_of_ne_nil empty]
      simpa using last
  have present : terms.rtakeWhile (· ≠ '/') ≠ [] := by
    intro none
    rw [List.rtakeWhile_eq_nil_iff] at none
    refine ended ?_
    rw [List.getLast?_eq_getLast_of_ne_nil some]
    simpa using none some
  generalize terms.rdropWhile (· ≠ '/') = before at parts opened back
  generalize terms.rtakeWhile (· ≠ '/') = last at parts plain present
  subst parts
  have own : last.splitOn '/' = [last] := List.splitOn_eq_singleton plain
  have noDot : last.head? ≠ Option.some '.' := by
    refine dotless last ?_
    rcases opened with rfl | slash
    · rw [List.nil_append, own]
      exact List.mem_cons_self
    · obtain ⟨front, rfl⟩ := List.getLast?_eq_some_iff.mp slash
      rw [List.append_assoc, List.singleton_append, List.splitOn_append_cons_self, own]
      exact List.mem_append_right _ List.mem_cons_self
  have moves : last ≠ here := by
    rintro rfl
    exact noDot rfl
  have single : segments last = [last] := by
    rw [segments, own]
    exact List.filter_cons_of_pos (by simp [present, moves])
  rw [back, segments_ended opened, single, List.dropLast_concat]
  exact ⟨rfl, by simp⟩

/-- Where a text leads from the directory it is read in. -/
def leads (path : List Char) : Location := Location.follow ⟨false, 0, []⟩ (segments path)

/-- It does not change where the text leads. -/
theorem leads_concat (path : List Char) : leads (path ++ ['/']) = leads path := by
  rw [leads, segments_concat, leads]

/-- There the second part is followed from where the first one leads. -/
theorem leads_ended {path : List Char} (ended : Ended path) (rest : List Char) :
    leads (path ++ rest) = (leads path).follow (segments rest) := by
  rw [leads, segments_ended ended, Location.follow_append, leads]

/-- What was read leads where what is written does, behind two dots with a step
up still to be taken. A term that is being copied stands in both. -/
def SameWay (front : List Char) : Place × List Char → Prop
  | (.term, written) => front = [] ∧ written = []
  | (.slashes, written) => Ended front ∧ leads front = leads written
  | (.dot, written) => ∃ before, front = before ++ here ∧ Ended before ∧
      leads before = leads written
  | (.dots, written) => leads front = (leads written).up
  | (.name, written) => ∃ before out name, front = before ++ name ∧ written = out ++ name ∧
      Ended before ∧ Ended out ∧ leads before = leads out

/-- Behind what is written in front of a term, one may start. -/
theorem Open.ended {written : List Char} (room : Open written) : Ended written := by
  rcases room with rfl | rfl | ⟨terms, -, rfl⟩
  · exact .inl rfl
  · exact .inr rfl
  · exact ended_concat terms

/-- Taking a term back is a step up. -/
theorem leads_backtrack {written : List Char} (room : Open written) (some : written ≠ [])
    (free : written.head? ≠ Option.some '/') :
    leads (backtrack written) = (leads written).up := by
  rcases room with impossible | rfl | ⟨terms, settled, rfl⟩
  · exact absurd impossible some
  · exact absurd rfl free
  · cases terms with
    | nil => exact settled.elim
    | cons first rest =>
      have plain : first ≠ '/' := by simpa using free
      have dotless : Dotless (first :: rest) :=
        dotless_of_settled settled fun _ same => absurd (List.cons.inj same).1 plain
      have last : (first :: rest).getLast? ≠ Option.some '/' := by
        cases rest with
        | nil => simpa using plain
        | cons second more => simpa using settled.2.2
      obtain ⟨shorter, present⟩ := segments_backtrack dotless last (by simp)
      have names := dotless.named
      rw [leads_concat, leads, leads, shorter, Location.follow_names _ _ names,
        Location.follow_names _ _ fun name member => names name (List.dropLast_subset _ member)]
      simp [Location.up, present]

/-- The first byte that is written is never a slash. -/
def Free : Place × List Char → Prop
  | (_, written) => written.head? ≠ some '/'

/-- A single dot stays. -/
theorem leads_here {before : List Char} (ended : Ended before) :
    leads (before ++ here) = leads before := by
  have still : segments here = [] := by decide
  rw [leads_ended ended, still]
  rfl

/-- Two dots go up. -/
theorem leads_parent {before : List Char} (ended : Ended before) :
    leads (before ++ parent) = (leads before).up := by
  have goesUp : segments parent = [parent] := by decide
  rw [leads_ended ended, goesUp]
  rfl

/-- Inside a term both texts are continued alike. -/
theorem SameWay.leads {front written : List Char} (same : SameWay front (.name, written)) :
    leads front = leads written := by
  obtain ⟨before, out, name, rfl, rfl, ended, opened, together⟩ := same
  rw [leads_ended ended, leads_ended opened, together]

/-- Going back over a term brings no slash to the front. -/
theorem free_backtrack {written : List Char} (free : written.head? ≠ some '/') :
    (backtrack written).head? ≠ some '/' := by
  obtain ⟨rest, whole⟩ :=
    (List.rdropWhile_prefix (· ≠ '/') (l := written.dropLast)).trans (List.dropLast_prefix written)
  intro slash
  obtain ⟨others, same⟩ := List.head?_eq_some_iff.mp slash
  rw [backtrack] at same
  rw [← whole, same] at free
  exact free rfl

/-- A step of the resolver keeps the way: what was read leads where what is written
does. -/
theorem read_same {front : List Char} {state next : Place × List Char} {c : Char}
    (kept : Kept state) (free : Free state) (same : SameWay front state)
    (start : state.1 = .term → c ≠ '/') (stepped : ModuleNames.read state c = some next) :
    Free next ∧ SameWay (front ++ [c]) next := by
  obtain ⟨place, written⟩ := state
  cases place with
  | term =>
    obtain ⟨rfl, rfl⟩ := same
    rw [ModuleNames.read] at stepped
    split at stepped <;> obtain rfl := Option.some.inj stepped
    · rename_i dot
      exact ⟨free, [], by simp [dot, here], .inl rfl, rfl⟩
    · exact ⟨by simpa [Free] using start rfl, [], [], [c], rfl, rfl, .inl rfl, .inl rfl, rfl⟩
  | dot =>
    obtain ⟨before, rfl, ended, together⟩ := same
    rw [ModuleNames.read] at stepped
    split at stepped
    · rename_i slash
      subst slash
      obtain rfl := Option.some.inj stepped
      exact ⟨free, ended_concat _, by rw [leads_concat, leads_here ended, together]⟩
    · split at stepped
      · rename_i dot
        subst dot
        obtain rfl := Option.some.inj stepped
        have up := leads_parent ended
        rw [together] at up
        exact ⟨free, by rw [List.append_assoc]; exact up⟩
      · cases stepped
  | dots =>
    rw [ModuleNames.read] at stepped
    split at stepped
    · rename_i ready
      obtain ⟨rfl, some⟩ := ready
      obtain rfl := Option.some.inj stepped
      refine ⟨free_backtrack free, ended_concat _, ?_⟩
      rw [leads_concat, leads_backtrack kept some free]
      exact same
    · cases stepped
  | name =>
    have together := SameWay.leads same
    obtain ⟨first, rest, rfl⟩ : ∃ first rest, written = first :: rest := by
      cases written with
      | nil => exact kept.elim
      | cons first rest => exact ⟨first, rest, rfl⟩
    rw [ModuleNames.read] at stepped
    split at stepped
    · rename_i slash
      subst slash
      obtain rfl := Option.some.inj stepped
      exact ⟨free, ended_concat _, by rw [leads_concat, leads_concat, together]⟩
    · obtain rfl := Option.some.inj stepped
      obtain ⟨before, out, name, rfl, whole, ended, opened, apart⟩ := same
      refine ⟨free, before, out, name ++ [c], ?_, ?_, ended, opened, apart⟩
      · rw [List.append_assoc]
      · rw [whole, List.append_assoc]
  | slashes =>
    obtain ⟨ended, together⟩ := same
    by_cases slash : c = '/'
    · subst slash
      obtain rfl := Option.some.inj stepped
      exact ⟨free, ended_concat _, by rw [leads_concat, together]⟩
    · rw [ModuleNames.read] at stepped
      · split at stepped <;> obtain rfl := Option.some.inj stepped
        · rename_i dot
          subst dot
          exact ⟨free, front, rfl, ended, together⟩
        · refine ⟨?_, front, written, [c], rfl, rfl, ended, Open.ended kept, together⟩
          cases written with
          | nil => simpa [Free] using slash
          | cons first rest => exact free
      · exact slash

/-- So does its whole run. -/
theorem foldlM_same (input front : List Char) (state next : Place × List Char)
    (kept : Kept state) (free : Free state) (same : SameWay front state)
    (start : state.1 = .term → input.head? ≠ some '/')
    (ran : input.foldlM ModuleNames.read state = some next) :
    Free next ∧ SameWay (front ++ input) next := by
  induction input generalizing front state with
  | nil =>
    obtain rfl := Option.some.inj ran
    exact ⟨free, by rwa [List.append_nil]⟩
  | cons c rest ih =>
    obtain ⟨middle, first, later⟩ := Option.bind_eq_some_iff.mp ran
    obtain ⟨still, together⟩ :=
      read_same kept free same (fun atStart => by simpa using start atStart) first
    have rest := ih (front ++ [c]) middle (read_kept kept first).1 still together
      (fun atStart => absurd atStart (read_place first)) later
    rwa [List.append_assoc, List.singleton_append] at rest

/-- A request that starts with no slash is resolved to where it leads as a path. -/
theorem leads_resolveInput {input id : List Char} (free : input.head? ≠ some '/')
    (resolved : resolveInput input = some id) :
    id.head? ≠ some '/' ∧ leads id = leads input := by
  unfold resolveInput at resolved
  split at resolved
  · rename_i written ran
    obtain rfl := Option.some.inj resolved
    obtain ⟨starts, same⟩ := foldlM_same input [] (.term, []) (.name, written) rfl
      (by simp [Free]) ⟨rfl, rfl⟩ (fun _ => free) ran
    exact ⟨starts, same.leads.symm⟩
  · cases resolved

/-- A text without a slash in front is read in the directory. -/
theorem locate_eq_leads {path : List Char} (free : path.head? ≠ some '/') :
    locate path = leads path := by
  have start : rooted path = false := by simpa [rooted] using free
  rw [locate, start, leads]

/-- An identifier that starts with no slash never climbs. -/
theorem locate_settled {id : List Char} (settled : Settled id) (free : id.head? ≠ some '/') :
    locate id = ⟨false, 0, segments id⟩ := by
  have dotless : Dotless id := dotless_of_settled settled fun rest same => by
    rw [same] at free
    exact absurd rfl free
  rw [locate_eq_leads free, leads, dotless.follow]
  rfl

/-- A request of a module in the script root that starts with a dot leads where
it says, read in the directory of that module, and does not leave the script
root. -/
theorem relative_request_leads (modId request id : List Char) (some : modId ≠ [])
    (free : modId.head? ≠ Option.some '/') (dot : request.head? = Option.some '.')
    (resolved : resolveModuleId (Option.some modId) request = .ok id) :
    locate id = (locate modId).up.follow (segments request) ∧ (locate id).ups = 0 := by
  obtain ⟨input, fits, read⟩ := (resolveModuleId_ok_iff _ _ _).mp resolved
  have whole : input = modId ++ "/../".toList ++ request := by
    simp only [resolveBuffer, dot, if_true] at fits
    split at fits
    · cases fits
    · exact (Option.some.inj fits).symm
  obtain ⟨first, rest, rfl⟩ := List.exists_cons_of_ne_nil some
  have begins : input.head? ≠ Option.some '/' := by
    rw [whole]
    exact free
  obtain ⟨starts, same⟩ := leads_resolveInput begins read
  have joined : input = ((first :: rest) ++ ['/']) ++ (parent ++ '/' :: request) := by
    rw [whole, List.append_assoc, List.append_assoc]
    rfl
  have goesUp : segments parent = [parent] := by decide
  have walked : leads input = (locate (first :: rest)).up.follow (segments request) := by
    rw [joined, leads_ended (ended_concat _), leads_concat, segments_append_cons, goesUp,
      Location.follow_append, locate_eq_leads free]
    rfl
  obtain ⟨settled, -⟩ := settled_of_resolved resolved
  refine ⟨by rw [locate_eq_leads starts, same, walked], ?_⟩
  rw [locate_settled settled starts]

/-- `./../rss`, asked for by `plugins/autoadd`, leads to `rss`. -/
theorem relative_request_leads_witness :
    locate "rss".toList =
        (locate "plugins/autoadd".toList).up.follow (segments "./../rss".toList) ∧
      (locate "rss".toList).ups = 0 :=
  relative_request_leads "plugins/autoadd".toList "./../rss".toList "rss".toList (by decide)
    (by decide) (by decide) (by decide)

end Hadouken.ModulePaths
