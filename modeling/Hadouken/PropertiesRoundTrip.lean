import Hadouken.PropertiesOrder
import Mathlib.Tactic.Ring

/-!
# Properties of a torrent, set and read

`webui.getProperties` reads what `webui.setProperties` set, through conversions of
its own: the seed ratio is kept as a fraction of a thousand and read with 2 in
place of whatever is falsy, the seed time is kept in seconds, the number of upload
slots has a sentinel. The answer also lists the trackers by their tiers, and there
is none where a tier is left out.
-/

namespace Hadouken.TorrentProperties

open Script MetadataStore HashUpdates Settings Batches

/-- What the answer uses of an announce entry. -/
structure AnnounceEntry where
  tier : Nat
  url : String

section Trackers

/-- `tiers.slice(0, tier + 1)`, then `tiers[tier] = []`: tiers in between are
holes. -/
def growTiers (tiers : List (Option (List String))) (tier : Nat) : List (Option (List String)) :=
  let kept := tiers.take (tier + 1)
  kept ++ List.replicate (tier - kept.length) none ++ [some []]

/-- `tiers[tier].push(url)`, which throws on a hole. -/
def pushUrl (tiers : List (Option (List String))) (entry : AnnounceEntry) :
    Option (List (Option (List String))) := do
  let urls ← (tiers[entry.tier]?).join
  return tiers.set entry.tier (some (urls ++ [entry.url]))

/-- One round of the first loop. -/
def addTracker (tiers : List (Option (List String))) (entry : AnnounceEntry) :
    Option (List (Option (List String))) :=
  pushUrl (if tiers.length ≤ entry.tier then growTiers tiers entry.tier else tiers) entry

/-- One round of the second loop, which throws on a hole. -/
def joinTier (result : String) (tier : Option (List String)) : Option String :=
  tier.map fun urls => urls.foldl (fun result url => result ++ url ++ "\r\n") result

/-- All tiers, one after the other. -/
def joinTiers (tiers : List (Option (List String))) : Option String := tiers.foldlM joinTier ""

/-- `explodeTrackers`: the trackers by their tiers, and the tiers as one text. -/
def explodeTrackers (trackers : List AnnounceEntry) : Option String := do
  joinTiers (← trackers.foldlM addTracker [])

/-- No tier is left out: before a tracker, there is one of every lower tier. -/
def NoGap (trackers : List AnnounceEntry) : Prop :=
  ∀ before tracker after, trackers = before ++ tracker :: after →
    ∀ lower < tracker.tier, ∃ earlier ∈ before, earlier.tier = lower

/-- No tier is a hole. -/
def Filled (tiers : List (Option (List String))) : Prop := none ∉ tiers

/-- The tiers are joined where none is missing. -/
theorem joinTiers_isSome_iff (tiers : List (Option (List String))) :
    (joinTiers tiers).isSome = true ↔ Filled tiers := by
  have general : ∀ (tiers : List (Option (List String))) (result : String),
      (tiers.foldlM joinTier result).isSome = true ↔ Filled tiers := by
    intro tiers
    induction tiers with
    | nil => simp [Filled]
    | cons tier rest ih =>
      intro result
      cases tier with
      | none => simp [Filled, joinTier]
      | some urls => simpa [Filled, joinTier] using ih _
  exact general tiers ""

/-- A tracker of a tier that is there changes that tier alone. -/
theorem addTracker_inside (tiers : List (Option (List String))) (entry : AnnounceEntry)
    (filled : Filled tiers) (inside : entry.tier < tiers.length) :
    ∃ next, addTracker tiers entry = some next ∧ Filled next ∧ next.length = tiers.length := by
  have present : tiers[entry.tier] ≠ none := fun hole => filled (hole ▸ List.getElem_mem inside)
  obtain ⟨urls, found⟩ := Option.ne_none_iff_exists'.mp present
  refine ⟨tiers.set entry.tier (some (urls ++ [entry.url])), ?_, fun hole => ?_, by simp⟩
  · rw [addTracker, if_neg (by omega), pushUrl, List.getElem?_eq_getElem inside, found]
    rfl
  · rcases List.mem_or_eq_of_mem_set hole with earlier | own
    · exact filled earlier
    · cases own

/-- A tracker of the next tier opens it. -/
theorem addTracker_next (tiers : List (Option (List String))) (entry : AnnounceEntry)
    (filled : Filled tiers) (next : entry.tier = tiers.length) :
    addTracker tiers entry = some (tiers ++ [some [entry.url]]) ∧
      Filled (tiers ++ [some [entry.url]]) := by
  constructor
  · simp [addTracker, pushUrl, growTiers, next]
  · simpa [Filled] using filled

/-- A hole stays. -/
theorem addTracker_hole (tiers next : List (Option (List String))) (entry : AnnounceEntry)
    (hole : ¬ Filled tiers) (added : addTracker tiers entry = some next) : ¬ Filled next := by
  have grown : ∀ tiers : List (Option (List String)), ¬ Filled tiers →
      pushUrl tiers entry = some next → ¬ Filled next := by
    intro tiers hole pushed
    simp only [pushUrl, Option.bind_eq_bind, Option.bind_eq_some_iff, Option.join_eq_some_iff,
      Option.pure_def, Option.some.injEq] at pushed
    obtain ⟨urls, found, rfl⟩ := pushed
    obtain ⟨index, inside, missing⟩ := List.getElem_of_mem (not_not.mp hole)
    have distinct : entry.tier ≠ index := by
      rintro rfl
      rw [List.getElem?_eq_getElem inside, missing] at found
      cases found
    refine not_not.mpr ?_
    have kept : (tiers.set entry.tier (some (urls ++ [entry.url])))[index]? = some none := by
      rw [List.getElem?_set_ne distinct, List.getElem?_eq_getElem inside, missing]
    exact List.mem_of_getElem? kept
  refine grown _ ?_ added
  split
  · rename_i outside
    have all : tiers.take (entry.tier + 1) = tiers := List.take_of_length_le (by omega)
    refine not_not.mpr ?_
    simp only [growTiers, all]
    exact List.mem_append_left _ (List.mem_append_left _ (not_not.mp hole))
  · exact hole

/-- A tracker that leaves out a tier leaves a hole. -/
theorem addTracker_beyond (tiers next : List (Option (List String))) (entry : AnnounceEntry)
    (beyond : tiers.length < entry.tier) (added : addTracker tiers entry = some next) :
    ¬ Filled next := by
  have all : tiers.take (entry.tier + 1) = tiers := List.take_of_length_le (by omega)
  have inside : (growTiers tiers entry.tier)[entry.tier]? = some (some []) := by
    have length : (tiers ++ List.replicate (entry.tier - tiers.length)
        (none : Option (List String))).length = entry.tier := by
      simp only [List.length_append, List.length_replicate]
      omega
    simp only [growTiers, all]
    rw [List.getElem?_append_right (by omega), length]
    simp
  have hole : (growTiers tiers entry.tier)[tiers.length]? = some none := by
    simp only [growTiers, all, List.append_assoc]
    rw [List.getElem?_append_right (Nat.le_refl _), Nat.sub_self,
      List.getElem?_append_left (by simp only [List.length_replicate]; omega),
      List.getElem?_replicate_of_lt (by omega)]
  rw [addTracker, if_pos (by omega)] at added
  simp only [pushUrl, inside, Option.join_some, Option.bind_eq_bind, Option.bind_some,
    Option.pure_def, Option.some.injEq] at added
  subst added
  refine not_not.mpr (List.mem_of_getElem? (i := tiers.length) ?_)
  rw [List.getElem?_set_ne (by omega), hole]

/-- Whether trackers have all lower tiers before them, with some tiers there. -/
def NoGapFrom (tiers : Nat) (trackers : List AnnounceEntry) : Prop :=
  ∀ before tracker after, trackers = before ++ tracker :: after →
    ∀ lower < tracker.tier, lower < tiers ∨ ∃ earlier ∈ before, earlier.tier = lower

/-- The first tracker opens at most the next tier. -/
theorem noGapFrom_cons (tiers : Nat) (tracker : AnnounceEntry) (rest : List AnnounceEntry) :
    NoGapFrom tiers (tracker :: rest) ↔
      tracker.tier ≤ tiers ∧ NoGapFrom (max tiers (tracker.tier + 1)) rest := by
  constructor
  · intro noGap
    have first : tracker.tier ≤ tiers := by
      by_contra above
      rcases noGap [] tracker rest rfl tiers (by omega) with below | ⟨earlier, member, _⟩
      · omega
      · cases member
    refine ⟨first, ?_⟩
    rintro before own after rfl lower below
    rcases noGap (tracker :: before) own after rfl lower below with there | ⟨earlier, member, same⟩
    · exact .inl (by omega)
    · rcases List.mem_cons.mp member with rfl | later
      · exact .inl (by omega)
      · exact .inr ⟨earlier, later, same⟩
  · rintro ⟨first, noGap⟩ before own after split lower below
    cases before with
    | nil =>
      obtain ⟨rfl, rfl⟩ := List.cons_eq_cons.mp split
      exact .inl (by omega)
    | cons head before =>
      obtain ⟨rfl, rfl⟩ := List.cons_eq_cons.mp split
      rcases noGap before own after rfl lower below with there | ⟨earlier, member, same⟩
      · by_cases own : lower < tiers
        · exact .inl own
        · exact .inr ⟨tracker, List.mem_cons_self, by omega⟩
      · exact .inr ⟨earlier, List.mem_cons_of_mem _ member, same⟩

/-- Trackers fill the tiers exactly where no tier is left out. The induction is on
the trackers; the tiers so far are filled, or have a hole that stays. -/
theorem fillTiers_iff (trackers : List AnnounceEntry) (tiers : List (Option (List String)))
    (filled : Filled tiers) :
    (∃ last, trackers.foldlM addTracker tiers = some last ∧ Filled last) ↔
      NoGapFrom tiers.length trackers := by
  have holes : ∀ (trackers : List AnnounceEntry) (tiers last : List (Option (List String))),
      ¬ Filled tiers → trackers.foldlM addTracker tiers = some last → ¬ Filled last := by
    intro trackers
    induction trackers with
    | nil =>
      rintro tiers last hole done
      obtain rfl := Option.some.inj done
      exact hole
    | cons tracker rest ih =>
      intro tiers last hole done
      rw [List.foldlM_cons] at done
      obtain ⟨next, added, rest⟩ := Option.bind_eq_some_iff.mp done
      exact ih next last (addTracker_hole tiers next tracker hole added) rest
  induction trackers generalizing tiers with
  | nil => exact ⟨fun _ before _ _ split => by simp at split, fun _ => ⟨tiers, rfl, filled⟩⟩
  | cons tracker rest ih =>
    rw [noGapFrom_cons, List.foldlM_cons]
    rcases Nat.lt_trichotomy tracker.tier tiers.length with inside | here | beyond
    · obtain ⟨next, added, filledNext, length⟩ := addTracker_inside tiers tracker filled inside
      have same : max tiers.length (tracker.tier + 1) = next.length := by omega
      rw [added, Option.bind_eq_bind, Option.bind_some, same]
      refine (ih next filledNext).trans ?_
      exact ⟨fun noGap => ⟨by omega, noGap⟩, And.right⟩
    · obtain ⟨added, filledNext⟩ := addTracker_next tiers tracker filled here
      have same : max tiers.length (tracker.tier + 1) =
          (tiers ++ [some [tracker.url]]).length := by
        rw [List.length_append, List.length_singleton]
        omega
      rw [added, Option.bind_eq_bind, Option.bind_some, same]
      refine (ih _ filledNext).trans ?_
      exact ⟨fun noGap => ⟨by omega, noGap⟩, And.right⟩
    · constructor
      · rintro ⟨last, done, filledLast⟩
        obtain ⟨next, added, later⟩ := Option.bind_eq_some_iff.mp done
        exact absurd filledLast
          (holes rest next last (addTracker_beyond tiers next tracker beyond added) later)
      · rintro ⟨below, _⟩
        omega

/-- The trackers are listed exactly where no tier is left out. -/
theorem explodeTrackers_isSome_iff (trackers : List AnnounceEntry) :
    (explodeTrackers trackers).isSome = true ↔ NoGap trackers := by
  have start : NoGapFrom 0 trackers ↔ NoGap trackers := by
    simp [NoGapFrom, NoGap]
  rw [← start, ← List.length_nil (α := Option (List String)),
    ← fillTiers_iff trackers [] List.not_mem_nil, explodeTrackers]
  cases trackers.foldlM addTracker [] with
  | none => simp
  | some tiers => simpa using joinTiers_isSome_iff tiers

end Trackers

/-- `number | 0`. -/
def toInt32 : Number → Int
  | .finite value => (value.num.tdiv value.den).bmod (2 ^ 32)
  | _ => 0

section GetProperties

variable (conversions : Conversions) (infoHash : String)

/-- `torrent.metadata("options") || {}`. -/
def optionsOf (state : State) : Value :=
  (metadataOf state.store infoHash "options").orElse (.object [])

/-- `options.name || fallback` as an operand of the arithmetic. -/
def optionNumber (state : State) (name : String) (fallback : Int) : Option Number := do
  conversions.toNumber ((← (optionsOf infoHash state).member name).orElse (.integer fallback))

/-- `getProperties(infoHash)` of a torrent. It has no result where it throws. -/
def getProperties (trackers : List AnnounceEntry) (state : State) : Option Members := do
  let trackerResult ← explodeTrackers trackers
  let seedOverride ← (optionsOf infoHash state).member "seedOverride"
  let seedRatio ← optionNumber conversions infoHash state "seedRatio" 2
  let seedTime ← optionNumber conversions infoHash state "seedTime" 0
  let maxUploads := (state.handle.limits .uploads).value
  return [
    ("hash", .string infoHash),
    ("auto_managed", .boolean state.handle.autoManaged),
    ("save_path", .string state.handle.savePath),
    ("trackers", .string trackerResult),
    ("ulrate", .integer (state.handle.limits .upload).value),
    ("dlrate", .integer (state.handle.limits .download).value),
    ("superseed", .integer (if state.handle.superSeed then 1 else 0)),
    ("dht", .integer 1),
    ("pex", .integer 1),
    ("seed_override", .boolean seedOverride.truthy),
    ("seed_ratio", .number (scale 1000 seedRatio)),
    ("seed_time", .integer (toInt32 (scale (1 / 60) seedTime))),
    ("ulslots", .integer (if maxUploads ≥ 16777215 then -1 else maxUploads)),
    ("seed_num", .integer 0),
    ("autoexec", .integer 0),
    ("autoexec_hide_ui", .integer 0),
    ("perf", .object [("w", .integer 0), ("W", .integer 0), ("h", .integer 0), ("c", .integer 2),
      ("j", .integer 1223123)])]

end GetProperties

/-- The keys whose values are switches. -/
def switchKeys : List String := ["auto_managed", "superseed", "seed_override"]

/-- A property as it is set: a switch or a limited number. -/
def WellFormed (property : String × Value) : Prop :=
  (property.1 ∈ switchKeys ∧ ∃ flag, property.2 = .boolean flag) ∨
    (property.1 ∈ numericKeys ∧ ∃ number : Nat, number < 16777215 ∧ property.2 = .integer number)

/-- The value that is reported for a property. -/
def shown (property : String × Value) : Value :=
  if property.1 = "superseed" then .integer (if property.2.truthy then 1 else 0) else property.2

/-- The request returns, and the answer to the next one has each property. -/
def RoundTrip (conversions : Conversions) (infoHash : String) (trackers : List AnnounceEntry)
    (props : Members) (state : State) : Prop :=
  (setProperties conversions infoHash props state).2 = true ∧
    ∃ answer, getProperties conversions infoHash trackers
        (setProperties conversions infoHash props state).1 = some answer ∧
      ∀ property ∈ props, answer.lookup property.1 = some (shown property)

/-- No ratio of zero is set, no tier of trackers is left out, and the stored
options that are not set convert to numbers. -/
structure Restorable (conversions : Conversions) (infoHash : String)
    (trackers : List AnnounceEntry) (props : Members) (state : State) : Prop where
  ratio : ∀ property ∈ props, property ≠ ("seed_ratio", .integer 0)
  tiers : NoGap trackers
  storedRatio : "seed_ratio" ∉ props.map Prod.fst →
    (optionNumber conversions infoHash state "seedRatio" 2).isSome = true
  storedTime : "seed_time" ∉ props.map Prod.fst →
    (optionNumber conversions infoHash state "seedTime" 0).isSome = true

/-- What a change sets is set. -/
def Change.InForce (infoHash : String) (state : State) : Change → Prop
  | .autoManaged flag => state.handle.autoManaged = flag
  | .superSeed flag => state.handle.superSeed = flag
  | .limit own value => state.handle.limits own = value
  | .savePath path => state.handle.savePath = path
  | .label text => documentOf (state.store infoHash) "label" = some (.string text)
  | .option name scalar =>
      (metadataOf state.store infoHash "options").member name = some scalar.stored

section Proof

variable (conversions : Conversions) {infoHash : String} {state next : State} {members : Members}

/-- A change that was made is in force. -/
theorem inForce_effect (made : Change) (effect : Effect infoHash made state members next) :
    made.InForce infoHash next := by
  cases made with
  | label text =>
    rw [Change.InForce, effect.metadata "label" (by decide)]
    rfl
  | option name scalar =>
    have held := effect.options
    rw [Options] at held
    rw [Change.InForce, held, Value.member_object, Change.onOptions, lookup_assign_self]
    rfl
  | limit own value =>
    rw [Change.InForce, effect.handle]
    simp [Change.onHandle]
  | _ =>
    rw [Change.InForce, effect.handle]
    rfl

/-- It stays in force where nothing is changed at its place. -/
theorem inForce_sameAt (made : Change) (same : SameAt infoHash state next made.place)
    (set : made.InForce infoHash state) : made.InForce infoHash next := by
  cases made with
  | label text => exact (same (by decide)).trans set
  | _ => exact Eq.trans same set

/-- With options, the ones read are the ones stored. -/
theorem optionsOf_held (held : Options infoHash state members) :
    optionsOf infoHash state = .object members := by
  rw [Options] at held
  rw [optionsOf, held]
  rfl

/-- A stored number is read, if it counts as there. -/
theorem optionNumber_inForce (held : Options infoHash state members) (name : String)
    (fallback : Int) (value : ℚ)
    (set : (Change.option name (.number (.finite value))).InForce infoHash state) :
    optionNumber conversions infoHash state name fallback =
      some (.finite (if value = 0 then fallback else value)) := by
  rw [Options] at held
  rw [Change.InForce, held, ← optionsOf_held held] at set
  rw [optionNumber, set, Option.bind_eq_bind, Option.bind_some]
  have truthy : (Scalar.number (.finite value)).stored.truthy = decide (value ≠ 0) := rfl
  by_cases zero : value = 0
  · rw [if_pos zero, Value.orElse_falsy _ (truthy.trans (by simp [zero]))]
    exact conversions.toNumber_number _
  · rw [if_neg zero, Value.orElse_truthy _ (truthy.trans (by simp [zero]))]
    exact conversions.toNumber_number _

/-- A stored option that stays is read as before. -/
theorem optionNumber_sameAt {others : Members} (held : Options infoHash state members)
    (still : Options infoHash next others) (name : String) (fallback : Int)
    (same : SameAt infoHash state next (.option name)) :
    optionNumber conversions infoHash next name fallback =
      optionNumber conversions infoHash state name fallback := by
  rw [SameAt, held, still, ← optionsOf_held held, ← optionsOf_held still] at same
  rw [optionNumber, optionNumber, same]

/-- A small natural number is kept. -/
theorem toInt32_natural (number : Nat) (small : number < 16777215) :
    toInt32 (.finite number) = number := by
  simp only [toInt32, Rat.num_natCast, Rat.den_natCast, Nat.cast_one, Int.tdiv_one]
  exact Int.bmod_eq_of_le_mul_two (by omega) (by omega)

/-- A small natural number is kept by the library. -/
theorem toInt_natural (number : Nat) (small : number < 16777215) :
    (toInt (.finite number)).value = number := by
  simp only [toInt, CInt.clamp, Rat.num_natCast, Rat.den_natCast, Nat.cast_one, Int.tdiv_one]
  omega

/-- The change a well-formed property makes. -/
inductive Sets : String × Value → Change → Prop
  | autoManaged (flag : Bool) : Sets ("auto_managed", .boolean flag) (.autoManaged flag)
  | superSeed (flag : Bool) : Sets ("superseed", .boolean flag) (.superSeed flag)
  | seedOverride (flag : Bool) :
      Sets ("seed_override", .boolean flag) (.option "seedOverride" (.boolean flag))
  | downloads (number : Nat) (small : number < 16777215) :
      Sets ("dlrate", .integer number) (.limit .download (toInt (.finite number)))
  | uploads (number : Nat) (small : number < 16777215) :
      Sets ("ulrate", .integer number) (.limit .upload (toInt (.finite number)))
  | slots (number : Nat) (small : number < 16777215) :
      Sets ("ulslots", .integer number) (.limit .uploads (toInt (.finite number)))
  | seedRatio (number : Nat) (small : number < 16777215) :
      Sets ("seed_ratio", .integer number)
        (.option "seedRatio" (.number (.finite (number * (1 / 1000)))))
  | seedTime (number : Nat) (small : number < 16777215) :
      Sets ("seed_time", .integer number) (.option "seedTime" (.number (.finite (number * 60))))

/-- A well formed property sets something. -/
theorem sets_wellFormed (property : String × Value) (fit : WellFormed property) :
    ∃ made, Sets property made := by
  obtain ⟨key, val⟩ := property
  rcases fit with ⟨switch, flag, rfl⟩ | ⟨numeric, number, small, rfl⟩
  · simp only [switchKeys, List.mem_cons, List.not_mem_nil, or_false] at switch
    rcases switch with rfl | rfl | rfl
    · exact ⟨_, .autoManaged flag⟩
    · exact ⟨_, .superSeed flag⟩
    · exact ⟨_, .seedOverride flag⟩
  · simp only [numericKeys, List.mem_cons, List.not_mem_nil, or_false] at numeric
    rcases numeric with rfl | rfl | rfl | rfl | rfl
    · exact ⟨_, .downloads number small⟩
    · exact ⟨_, .seedRatio number small⟩
    · exact ⟨_, .seedTime number small⟩
    · exact ⟨_, .uploads number small⟩
    · exact ⟨_, .slots number small⟩

/-- What a property sets is its change. -/
theorem change_sets (property : String × Value) (made : Change) (sets : Sets property made) :
    change conversions property = some (some made) := by
  have parsed : ∀ number : Nat, number < 16777215 →
      conversions.parseInt (.integer number) = some (.finite number) := fun number small =>
    conversions.parseInt_integer number (by omega)
  cases sets with
  | autoManaged flag => rfl
  | superSeed flag => rfl
  | seedOverride flag => rfl
  | downloads number small
  | uploads number small
  | slots number small
  | seedRatio number small
  | seedTime number small => simp [change, arms, lookup_cons_ite, parsed number small, scale]

/-- A property in force is reported, but for a ratio of zero. -/
theorem reported_iff (trackers : List AnnounceEntry) (answer : Members)
    (held : Options infoHash state members)
    (read : getProperties conversions infoHash trackers state = some answer)
    (property : String × Value) (made : Change) (sets : Sets property made)
    (set : made.InForce infoHash state) :
    answer.lookup property.1 = some (shown property) ↔ property ≠ ("seed_ratio", .integer 0) := by
  simp only [getProperties, Option.bind_eq_bind, Option.bind_eq_some_iff, Option.pure_def,
    Option.some.injEq] at read
  obtain ⟨text, _, override, readOverride, ratio, readRatio, time, readTime, rfl⟩ := read
  cases sets with
  | autoManaged flag =>
    rw [Change.InForce] at set
    simp [lookup_cons_ite, shown, set]
  | superSeed flag =>
    rw [Change.InForce] at set
    cases flag <;> simp [lookup_cons_ite, shown, set, Value.truthy]
  | seedOverride flag =>
    rw [Options] at held
    rw [Change.InForce, held, ← optionsOf_held held, readOverride] at set
    obtain rfl := Option.some.inj set
    simp [lookup_cons_ite, shown, Scalar.stored, Value.truthy]
  | downloads number small =>
    rw [Change.InForce] at set
    simp [lookup_cons_ite, shown, set, toInt_natural number small]
  | uploads number small =>
    rw [Change.InForce] at set
    simp [lookup_cons_ite, shown, set, toInt_natural number small]
  | slots number small =>
    rw [Change.InForce] at set
    have below : ¬ (16777215 : Int) ≤ number := by omega
    simp [lookup_cons_ite, shown, set, toInt_natural number small, below]
  | seedRatio number small =>
    rw [optionNumber_inForce conversions held "seedRatio" 2 _ set] at readRatio
    obtain rfl := Option.some.inj readRatio
    by_cases zero : number = 0
    · simp [lookup_cons_ite, shown, zero, scale, Value.integer]
    · have present : (number : ℚ) * (1 / 1000) ≠ 0 := by
        simpa using zero
      have scaled : (number : ℚ) * (1 / 1000) * 1000 = number := by ring
      simp only [if_neg present, scale, scaled]
      simp [lookup_cons_ite, shown, zero, Value.integer]
  | seedTime number small =>
    rw [optionNumber_inForce conversions held "seedTime" 0 _ set] at readTime
    obtain rfl := Option.some.inj readTime
    have scaled : (if (number : ℚ) * 60 = 0 then ((0 : Int) : ℚ) else number * 60) * (1 / 60) =
        number := by
      split
      · rename_i zero
        have none : (number : ℚ) = 0 := by simpa using zero
        simp [none]
      · ring
    simp only [scale, scaled, toInt32_natural number small]
    simp [lookup_cons_ite, shown]

/-- The answer is there exactly where no tier is left out and the goals convert. -/
theorem getProperties_isSome (trackers : List AnnounceEntry)
    (held : Options infoHash state members) :
    (getProperties conversions infoHash trackers state).isSome = true ↔
      NoGap trackers ∧ (optionNumber conversions infoHash state "seedRatio" 2).isSome = true ∧
        (optionNumber conversions infoHash state "seedTime" 0).isSome = true := by
  rw [← explodeTrackers_isSome_iff, getProperties, optionsOf_held held]
  cases explodeTrackers trackers <;>
    cases optionNumber conversions infoHash state "seedRatio" 2 <;>
      cases optionNumber conversions infoHash state "seedTime" 0 <;> simp

/-- Well-formed properties are all in force at the end. -/
theorem setProperties_inForce (props : Members) (held : Options infoHash state members)
    (distinct : (props.map Prod.fst).Nodup) (fit : ∀ property ∈ props, WellFormed property) :
    (setProperties conversions infoHash props state).2 = true ∧
      ∀ property ∈ props, ∀ made, Sets property made →
        made.InForce infoHash (setProperties conversions infoHash props state).1 := by
  have rounds : ∀ state, (∃ members, Options infoHash state members) → ∀ property ∈ props,
      ∃ next, setProperty conversions infoHash state property = some next ∧
        (∃ members, Options infoHash next members) ∧
        (∀ made, Sets property made → made.InForce infoHash next) ∧
        ∀ other, other.1 ≠ property.1 →
          (∀ made, Sets other made → made.InForce infoHash state) →
            ∀ made, Sets other made → made.InForce infoHash next := by
    rintro state ⟨members, held⟩ property member
    obtain ⟨made, sets⟩ := sets_wellFormed property (fit property member)
    have changes := change_sets conversions property made sets
    obtain ⟨next, applied, effect⟩ := apply_spec held made
    refine ⟨next, by rw [setProperty_made property made changes, applied], ⟨_, effect.options⟩,
      fun own ownSets => ?_, fun other apart inForce another otherSets => ?_⟩
    · have same := change_sets conversions property own ownSets
      obtain rfl := Option.some.inj (Option.some.inj (changes.symm.trans same))
      exact inForce_effect made effect
    · refine inForce_sameAt another (sameAt_apply held made effect another.place fun same => ?_)
        (inForce another otherSets)
      have key := change_place property made changes
      rw [same, change_place other another (change_sets conversions other another otherSets)] at key
      exact apart (Option.some.inj key)
  obtain ⟨ended, established, _⟩ := each_establishes _ _ (fun first second => first.1 ≠ second.1)
    props state ⟨members, held⟩ (List.pairwise_map.mp distinct) rounds
  exact ⟨ended, established⟩

/-- The ratio that is set is a number. -/
theorem number_seedRatio (property : String × Value) (made : Change) (sets : Sets property made)
    (here : property.1 = "seed_ratio") :
    ∃ value : ℚ, made = .option "seedRatio" (.number (.finite value)) := by
  cases sets with
  | seedRatio number small => exact ⟨_, rfl⟩
  | _ => simp at here

/-- The time that is set is a number. -/
theorem number_seedTime (property : String × Value) (made : Change) (sets : Sets property made)
    (here : property.1 = "seed_time") :
    ∃ value : ℚ, made = .option "seedTime" (.number (.finite value)) := by
  cases sets with
  | seedTime number small => exact ⟨_, rfl⟩
  | _ => simp at here

/-- A numeric option converts after the call, if it is set or did before. -/
theorem optionNumber_after (props : Members) (held : Options infoHash state members)
    (distinct : (props.map Prod.fst).Nodup) (fit : ∀ property ∈ props, WellFormed property)
    (key name : String) (fallback : Int) (place : (Place.option name).key = some key)
    (number : ∀ property made, Sets property made → property.1 = key →
      ∃ value : ℚ, made = .option name (.number (.finite value))) :
    (optionNumber conversions infoHash (setProperties conversions infoHash props state).1 name
        fallback).isSome = true ↔
      (key ∉ props.map Prod.fst →
        (optionNumber conversions infoHash state name fallback).isSome = true) := by
  obtain ⟨_, ⟨others, still⟩, frame⟩ :=
    @setProperties_frame conversions infoHash state props members held
  by_cases given : key ∈ props.map Prod.fst
  · refine ⟨fun _ absent => absurd given absent, fun _ => ?_⟩
    obtain ⟨property, member, here⟩ := List.mem_map.mp given
    obtain ⟨made, sets⟩ := sets_wellFormed property (fit property member)
    have set := (setProperties_inForce conversions props held distinct fit).2 property member made
      sets
    obtain ⟨value, rfl⟩ := number property made sets here
    rw [optionNumber_inForce conversions still name fallback value set]
    rfl
  · have same := frame (.option name) fun own ownPlace => by
      rw [place] at ownPlace
      exact Option.some.inj ownPlace ▸ given
    rw [optionNumber_sameAt conversions held still name fallback same]
    exact ⟨fun there _ => there, fun there => there given⟩

end Proof

/-- Whatever is set on a torrent with options is reported exactly where no ratio of
zero is set and the answer can be made at all. -/
theorem roundTrip_iff_restorable (conversions : Conversions) (infoHash : String)
    (trackers : List AnnounceEntry) (state : State) (members props : Members)
    (held : Options infoHash state members) (distinct : (props.map Prod.fst).Nodup)
    (fit : ∀ property ∈ props, WellFormed property) :
    RoundTrip conversions infoHash trackers props state ↔
      Restorable conversions infoHash trackers props state := by
  obtain ⟨ended, inForce⟩ := setProperties_inForce conversions props held distinct fit
  obtain ⟨_, ⟨others, still⟩, _⟩ :=
    @setProperties_frame conversions infoHash state props members held
  have answered := getProperties_isSome conversions trackers still
  have ratio := optionNumber_after conversions props held distinct fit "seed_ratio" "seedRatio" 2
    rfl number_seedRatio
  have time := optionNumber_after conversions props held distinct fit "seed_time" "seedTime" 0
    rfl number_seedTime
  rw [ratio, time] at answered
  have reported : ∀ answer, getProperties conversions infoHash trackers
      (setProperties conversions infoHash props state).1 = some answer → ∀ property ∈ props,
        (answer.lookup property.1 = some (shown property) ↔
          property ≠ ("seed_ratio", .integer 0)) := by
    intro answer read property member
    obtain ⟨made, sets⟩ := sets_wellFormed property (fit property member)
    exact reported_iff conversions trackers answer still read property made sets
      (inForce property member made sets)
  constructor
  · rintro ⟨_, answer, read, all⟩
    obtain ⟨tiers, storedRatio, storedTime⟩ := answered.mp (by rw [read]; rfl)
    exact ⟨fun property member => (reported answer read property member).mp (all property member),
      tiers, storedRatio, storedTime⟩
  · rintro ⟨noZero, tiers, storedRatio, storedTime⟩
    obtain ⟨answer, read⟩ :=
      Option.isSome_iff_exists.mp (answered.mpr ⟨tiers, storedRatio, storedTime⟩)
    exact ⟨ended, answer, read, fun property member =>
      (reported answer read property member).mpr (noZero property member)⟩

/-- A rate, a switch and a time are reported as they were set. -/
theorem three_properties_reported :
    RoundTrip plainConversions "h" [⟨0, "udp://tracker"⟩]
      [("dlrate", .integer 5), ("superseed", .boolean true), ("seed_time", .integer 90)] seeded := by
  refine (roundTrip_iff_restorable plainConversions "h" [⟨0, "udp://tracker"⟩] seeded _
    [("dlrate", .integer 5), ("superseed", .boolean true), ("seed_time", .integer 90)]
    options_seeded (by decide) ?_).mpr ⟨?_, ?_, fun _ => rfl, fun given => absurd (by decide) given⟩
  · intro property member
    simp only [List.mem_cons, List.not_mem_nil, or_false] at member
    rcases member with rfl | rfl | rfl
    · exact .inr ⟨by decide, 5, by decide, rfl⟩
    · exact .inl ⟨by decide, true, rfl⟩
    · exact .inr ⟨by decide, 90, by decide, rfl⟩
  · simp
  · rw [← explodeTrackers_isSome_iff]
    rfl

/-- A seed ratio of zero is well formed and set, but 2000 is reported for it. -/
theorem ratio_of_zero_not_reported :
    WellFormed ("seed_ratio", .integer 0) ∧
      Options "h" seeded [("seedAction", .string "pause")] ∧
      ((getProperties plainConversions "h" []
          (setProperties plainConversions "h" [("seed_ratio", .integer 0)] seeded).1).bind
        fun answer => answer.lookup "seed_ratio") = some (.integer 2000) ∧
      ¬ RoundTrip plainConversions "h" [] [("seed_ratio", .integer 0)] seeded := by
  have reported : ((getProperties plainConversions "h" []
      (setProperties plainConversions "h" [("seed_ratio", .integer 0)] seeded).1).bind
        fun answer => answer.lookup "seed_ratio") = some (.integer 2000) := by
    have set : setProperty plainConversions "h" seeded ("seed_ratio", .integer 0) =
        setOption "h" seeded "seedRatio" (.number (.finite 0)) := by
      have made := change_sets plainConversions _ _ (.seedRatio 0 (by decide))
      refine (setProperty_made _ _ made seeded).trans ?_
      simp [Change.apply, Scalar.value]
    obtain ⟨next, written⟩ : ∃ next, setOption "h" seeded "seedRatio" (.number (.finite 0)) =
        some next := ⟨_, rfl⟩
    have ratio : optionNumber plainConversions "h" next "seedRatio" 2 = some (.finite 2) := by
      obtain rfl := Option.some.inj written
      rfl
    have time : optionNumber plainConversions "h" next "seedTime" 0 = some (.finite 0) := by
      obtain rfl := Option.some.inj written
      rfl
    have override : (optionsOf "h" next).member "seedOverride" = some .undefined := by
      obtain rfl := Option.some.inj written
      rfl
    rw [setProperties, each_cons_some [] (set.trans written)]
    simp [each, getProperties, ratio, time, override, lookup_cons_ite, scale, Value.integer,
      explodeTrackers, joinTiers]
    norm_num
  refine ⟨.inr ⟨by decide, 0, by decide, rfl⟩, options_seeded, reported, ?_⟩
  rintro ⟨_, answer, read, all⟩
  have given := all _ (List.mem_singleton.mpr rfl)
  rw [read, Option.bind_some, given] at reported
  simp [shown, Value.integer] at reported

end Hadouken.TorrentProperties
