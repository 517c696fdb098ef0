import Litecoin.Psbt.CombineKeys

/-! How `combine` settles two key sources of one xpub, and what an error leaves behind. -/
namespace Litecoin.Psbt
open Wire Consensus Bip32 Blockdata

/-- The shorter of two derivation paths is the end of the longer one. -/
def StrictSuffix (short long : DerivationPath) : Prop :=
  short.length < long.length ∧ short <:+ long

instance decidableStrictSuffix (short long : DerivationPath) : Decidable (StrictSuffix short long) :=
  inferInstanceAs (Decidable (_ ∧ _))

/-- The rule of the comment: of two sources that do not contradict each other, the one with
the longest derivation. -/
def resolve (given own : KeySource) : Option KeySource :=
  if given = own ∨ StrictSuffix given.2 own.2 then some own
  else if StrictSuffix own.2 given.2 then some given
  else none

/-- The own source stays. -/
def Keeps (given own : KeySource) : Prop := given = own ∨ StrictSuffix given.2 own.2

/-- The subtraction of the lengths underflows. -/
def Underflows (given own : KeySource) : Prop :=
  given.2.length < own.2.length ∧ ¬ given.2 <:+ own.2

/-- The error is reported. -/
def Refuses (given own : KeySource) : Prop :=
  own.2.length ≤ given.2.length ∧ ¬ own.2 <:+ given.2

/-- Another fingerprint for the same derivation. -/
def Disputes (given own : KeySource) : Prop := given.2 = own.2 ∧ given.1 ≠ own.1

theorem resolve_of_keeps (keeps : Keeps given own) : resolve given own = some own := if_pos keeps

theorem resolve_of_not_keeps (replaced : ¬ Keeps given own) :
    resolve given own = if StrictSuffix own.2 given.2 then some given else none := if_neg replaced

/-! What becomes of a source, given the one that is there. -/

def Kept (own : Option KeySource) (given : KeySource) : Prop := ∃ source ∈ own, Keeps given source

def Taken (own : Option KeySource) (given : KeySource) : Prop :=
  ∀ source ∈ own, ¬ Keeps given source ∧ source.2 <:+ given.2

def Panics (own : Option KeySource) (given : KeySource) : Prop :=
  ∃ source ∈ own, Underflows given source

def Refused (own : Option KeySource) (given : KeySource) : Prop :=
  ∃ source ∈ own, Refuses given source

/-- Against the rule: a panic, or a fingerprint that is replaced. -/
def Mishandled (own : Option KeySource) (given : KeySource) : Prop :=
  ∃ source ∈ own, Underflows given source ∨ Disputes given source

theorem kept_or_taken_or_panics_or_refused (own : Option KeySource) (given : KeySource) :
    Kept own given ∨ Taken own given ∨ Panics own given ∨ Refused own given := by
  cases own with
  | none => exact .inr (.inl fun _ => nofun)
  | some source =>
    by_cases keeps : Keeps given source
    · exact .inl ⟨source, rfl, keeps⟩
    by_cases ends : source.2 <:+ given.2
    · refine .inr (.inl ?_)
      rintro _ ⟨⟩
      exact ⟨keeps, ends⟩
    rcases Nat.lt_or_ge given.2.length source.2.length with shorter | longer
    · refine .inr (.inr (.inl ⟨source, rfl, shorter, fun inside => ?_⟩))
      exact keeps (.inr ⟨shorter, inside⟩)
    · exact .inr (.inr (.inr ⟨source, rfl, longer, ends⟩))

theorem Taken.not_panics {own : Option KeySource} (taken : Taken own given) : ¬ Panics own given := by
  rintro ⟨source, found, shorter, _⟩
  exact absurd (taken source found).2.length_le (Nat.not_le.mpr shorter)

theorem Taken.not_refused {own : Option KeySource} (taken : Taken own given) :
    ¬ Refused own given := by
  rintro ⟨source, found, _, apart⟩
  exact apart (taken source found).2

theorem Taken.not_kept {own : Option KeySource} (taken : Taken own given) : ¬ Kept own given := by
  rintro ⟨source, found, keeps⟩
  exact (taken source found).1 keeps

theorem Taken.mishandled_iff {own : Option KeySource} (taken : Taken own given) :
    Mishandled own given ↔ ∃ source ∈ own, Disputes given source := by
  constructor
  · rintro ⟨source, found, underflows | disputes⟩
    · exact absurd ⟨source, found, underflows⟩ taken.not_panics
    · exact ⟨source, found, disputes⟩
  · rintro ⟨source, found, disputes⟩
    exact ⟨source, found, .inr disputes⟩

theorem Refused.not_mishandled {own : Option KeySource} (refused : Refused own given) :
    ¬ Mishandled own given := by
  obtain ⟨source, found, longer, apart⟩ := refused
  rintro ⟨_, again, underflows | disputes⟩ <;> obtain rfl := Option.some.inj (found.symm.trans again)
  · exact absurd longer (Nat.not_le.mpr underflows.1)
  · exact apart (disputes.1 ▸ List.suffix_rfl)

theorem Kept.not_refused {own : Option KeySource} (kept : Kept own given) : ¬ Refused own given := by
  obtain ⟨source, found, keeps⟩ := kept
  rintro ⟨_, again, longer, apart⟩
  obtain rfl := Option.some.inj (found.symm.trans again)
  rcases keeps with rfl | ⟨shorter, _⟩
  · exact apart List.suffix_rfl
  · exact absurd longer (Nat.not_le.mpr shorter)

theorem Kept.not_mishandled {own : Option KeySource} (kept : Kept own given) :
    ¬ Mishandled own given := by
  obtain ⟨source, found, keeps⟩ := kept
  rintro ⟨_, again, underflows | disputes⟩ <;> obtain rfl := Option.some.inj (found.symm.trans again)
  · rcases keeps with rfl | ⟨_, inside⟩
    · exact absurd underflows.1 (Nat.lt_irrefl _)
    · exact underflows.2 inside
  · rcases keeps with rfl | ⟨shorter, _⟩
    · exact disputes.2 rfl
    · exact absurd (congrArg List.length disputes.1) (Nat.ne_of_lt shorter)

section
variable [Secp256k1] {map : BTreeMap Xpub KeySource} {entry : Xpub × KeySource}

theorem combineXpub_of_kept (kept : Kept map[entry.1]? entry.2) :
    (combineXpub map entry).run = some (.ok map) := by
  obtain ⟨xpub, fingerprint, derivation⟩ := entry
  obtain ⟨⟨fingerprint', derivation'⟩, found, keeps⟩ := kept
  simp only [Option.mem_def] at found
  simp only [combineXpub, found]
  rw [if_pos]
  · rfl
  · rcases keeps with same | ⟨shorter, inside⟩
    · exact .inl ⟨congrArg Prod.snd same, congrArg Prod.fst same⟩
    · exact .inr ⟨shorter, List.suffix_iff_eq_drop.mp inside⟩

/-- The guards of the loop, where the source that is there does not stay. -/
theorem combineXpub_of_not_keeps {own : KeySource} (found : map[entry.1]? = some own)
    (replaced : ¬ Keeps entry.2 own) : combineXpub map entry =
      if entry.2.2.length < own.2.length then ExceptT.mk none
      else if own.2 <:+ entry.2.2 then pure (map.insert entry.1 entry.2)
      else throw (.combineInconsistentKeySources entry.1) := by
  obtain ⟨xpub, fingerprint, derivation⟩ := entry
  obtain ⟨fingerprint', derivation'⟩ := own
  simp only [combineXpub, found, List.suffix_iff_eq_drop]
  refine if_neg ?_
  rintro (⟨rfl, rfl⟩ | ⟨shorter, inside⟩)
  · exact replaced (.inl rfl)
  · exact replaced (.inr ⟨shorter, List.suffix_iff_eq_drop.mpr inside⟩)

theorem combineXpub_of_taken (taken : Taken map[entry.1]? entry.2) :
    (combineXpub map entry).run = some (.ok (map.insert entry.1 entry.2)) := by
  rcases found : map[entry.1]? with _ | own
  · simp only [combineXpub, found]
    rfl
  · obtain ⟨replaced, ends⟩ := taken own found
    rw [combineXpub_of_not_keeps found replaced, if_neg (Nat.not_lt.mpr ends.length_le), if_pos ends]
    rfl

theorem combineXpub_of_panics (panics : Panics map[entry.1]? entry.2) :
    (combineXpub map entry).run = none := by
  obtain ⟨own, found, shorter, apart⟩ := panics
  have replaced : ¬ Keeps entry.2 own := by
    rintro (same | ⟨_, inside⟩)
    · exact absurd (congrArg (List.length ∘ Prod.snd) same) (Nat.ne_of_lt shorter)
    · exact apart inside
  rw [combineXpub_of_not_keeps found replaced, if_pos shorter]
  rfl

theorem combineXpub_of_refused (refused : Refused map[entry.1]? entry.2) :
    (combineXpub map entry).run = some (.error (.combineInconsistentKeySources entry.1)) := by
  have replaced := refused
  obtain ⟨own, found, longer, apart⟩ := refused
  have changed : ¬ Keeps entry.2 own := fun keeps => Kept.not_refused ⟨own, found, keeps⟩ replaced
  rw [combineXpub_of_not_keeps found changed, if_neg (Nat.not_lt.mpr longer), if_neg apart]
  rfl

/-- One round of the loop as the rule has it. -/
def resolveXpub (self : BTreeMap Xpub KeySource) (entry : Xpub × KeySource) :
    Except CombineError (BTreeMap Xpub KeySource) :=
  match self[entry.1]? with
  | none => .ok (self.insert entry.1 entry.2)
  | some own => match resolve entry.2 own with
    | some kept => .ok (self.insert entry.1 kept)
    | none => .error (.combineInconsistentKeySources entry.1)

theorem insert_found {own : KeySource} {xpub : Xpub} (found : map[xpub]? = some own) :
    map.insert xpub own = map := by
  refine Std.ExtTreeMap.ext_getElem? fun key => ?_
  rw [Std.ExtTreeMap.getElem?_insert]
  split
  · rename_i same
    rw [← Std.LawfulEqCmp.eq_of_compare same, found]
  · rfl

theorem resolveXpub_of_kept (kept : Kept map[entry.1]? entry.2) :
    resolveXpub map entry = .ok map := by
  obtain ⟨own, found, keeps⟩ := kept
  have same : map[entry.1]? = some own := found
  simp only [resolveXpub, same, resolve_of_keeps keeps, insert_found same]

theorem resolveXpub_of_taken (taken : Taken map[entry.1]? entry.2)
    (agreed : ¬ Mishandled map[entry.1]? entry.2) :
    resolveXpub map entry = .ok (map.insert entry.1 entry.2) := by
  rcases found : map[entry.1]? with _ | own
  · simp only [resolveXpub, found]
  · obtain ⟨replaced, ends⟩ := taken own found
    have longer : StrictSuffix own.2 entry.2.2 := by
      refine ⟨Nat.lt_of_le_of_ne ends.length_le fun same => ?_, ends⟩
      have path := ends.eq_of_length same
      refine agreed (taken.mishandled_iff.mpr ⟨own, found, path.symm, fun fingerprint => ?_⟩)
      exact replaced (.inl (Prod.ext fingerprint path.symm))
    simp only [resolveXpub, found, resolve_of_not_keeps replaced, if_pos longer]

theorem resolveXpub_of_unresolved {own : KeySource} (found : map[entry.1]? = some own)
    (replaced : ¬ Keeps entry.2 own) (kept : ¬ StrictSuffix own.2 entry.2.2) :
    resolveXpub map entry = .error (.combineInconsistentKeySources entry.1) := by
  simp only [resolveXpub, found, resolve_of_not_keeps replaced, if_neg kept]

theorem resolveXpub_of_refused (refused : Refused map[entry.1]? entry.2) :
    resolveXpub map entry = .error (.combineInconsistentKeySources entry.1) := by
  have apart := refused
  obtain ⟨own, found, _, other⟩ := refused
  exact resolveXpub_of_unresolved found (fun keeps => Kept.not_refused ⟨own, found, keeps⟩ apart)
    fun longer => other longer.2

theorem resolveXpub_of_mishandled (mishandled : Mishandled map[entry.1]? entry.2) :
    resolveXpub map entry = .error (.combineInconsistentKeySources entry.1) := by
  have wrong := mishandled
  obtain ⟨own, found, one⟩ := mishandled
  refine resolveXpub_of_unresolved found (fun keeps => Kept.not_mishandled ⟨own, found, keeps⟩ wrong) ?_
  rintro ⟨shorter, _⟩
  rcases one with ⟨longer, _⟩ | ⟨same, _⟩
  · exact absurd shorter (Nat.lt_asymm longer)
  · exact absurd (congrArg List.length same) (Nat.ne_of_gt shorter)

/-- No source up to the first refused one is mishandled. -/
def Consistent (own : Xpub → Option KeySource) : List (Xpub × KeySource) → Prop
  | [] => True
  | entry :: rest => ¬ Mishandled (own entry.1) entry.2 ∧
      (Refused (own entry.1) entry.2 ∨ Consistent own rest)

/-- A source is refused, and the loop gets there. -/
def Conflicts (own : Xpub → Option KeySource) : List (Xpub × KeySource) → Prop
  | [] => False
  | entry :: rest => Refused (own entry.1) entry.2 ∨
      ¬ Panics (own entry.1) entry.2 ∧ Conflicts own rest

/-- Every source before the first refused one is there already and stays. -/
def KeptUntilRefused (own : Xpub → Option KeySource) : List (Xpub × KeySource) → Prop
  | [] => True
  | entry :: rest => Refused (own entry.1) entry.2 ∨
      Kept (own entry.1) entry.2 ∧ KeptUntilRefused own rest

section
variable {own own' : Xpub → Option KeySource} {entries rest : List (Xpub × KeySource)}

theorem consistent_congr (same : ∀ entry ∈ entries, own entry.1 = own' entry.1) :
    Consistent own entries ↔ Consistent own' entries := by
  induction entries with
  | nil => exact Iff.rfl
  | cons entry rest ih =>
    rw [List.forall_mem_cons] at same
    rw [Consistent, Consistent, same.1, ih same.2]

theorem conflicts_congr (same : ∀ entry ∈ entries, own entry.1 = own' entry.1) :
    Conflicts own entries ↔ Conflicts own' entries := by
  induction entries with
  | nil => exact Iff.rfl
  | cons entry rest ih =>
    rw [List.forall_mem_cons] at same
    rw [Conflicts, Conflicts, same.1, ih same.2]

end

/-- No xpub is listed twice. -/
def Distinct (entries : List (Xpub × KeySource)) : Prop :=
  entries.Pairwise fun first second => first.1 ≠ second.1

theorem distinct_toList (map : BTreeMap Xpub KeySource) : Distinct map.toList := by
  refine Std.ExtTreeMap.distinct_keys_toList.imp fun apart same => apart ?_
  rw [same]
  exact Std.ReflCmp.compare_self

theorem getElem?_insert_of_ne {xpub other : Xpub} {source : KeySource} (apart : xpub ≠ other) :
    (map.insert xpub source)[other]? = map[other]? := by
  rw [Std.ExtTreeMap.getElem?_insert, if_neg]
  exact fun same => apart (Std.LawfulEqCmp.eq_of_compare same)

variable {entries rest : List (Xpub × KeySource)}

/-- What is inserted for one xpub is not seen by the rounds for the others. -/
theorem Distinct.unseen (distinct : Distinct (entry :: rest)) :
    ∀ other ∈ rest, (map.insert entry.1 entry.2)[other.1]? = map[other.1]? := by
  intro other inside
  exact getElem?_insert_of_ne ((List.pairwise_cons.mp distinct).1 other inside)

theorem foldlM_combineXpub_ok {next : BTreeMap Xpub KeySource}
    (stepped : (combineXpub map entry).run = some (.ok next)) :
    ((entry :: rest).foldlM combineXpub map).run = (rest.foldlM combineXpub next).run := by
  have step : combineXpub map entry = pure next := stepped
  rw [List.foldlM_cons, step, pure_bind]

theorem foldlM_combineXpub_error {e : CombineError}
    (stepped : (combineXpub map entry).run = some (.error e)) :
    ((entry :: rest).foldlM combineXpub map).run = some (.error e) := by
  have step : combineXpub map entry = throw e := stepped
  rw [List.foldlM_cons, step]
  rfl

theorem foldlM_combineXpub_panics (stepped : (combineXpub map entry).run = none) :
    ((entry :: rest).foldlM combineXpub map).run = none := by
  have step : combineXpub map entry = ExceptT.mk none := stepped
  rw [List.foldlM_cons, step]
  rfl

/-- An error is about one of the xpubs that were still to come. -/
theorem foldlM_combineXpub_names {e : CombineError} {map : BTreeMap Xpub KeySource}
    (failed : (entries.foldlM combineXpub map).run = some (.error e)) :
    ∃ entry ∈ entries, e = .combineInconsistentKeySources entry.1 := by
  induction entries generalizing map with
  | nil => exact absurd (Option.some.inj failed) nofun
  | cons entry rest ih =>
    have later {next : BTreeMap Xpub KeySource}
        (stepped : (combineXpub map entry).run = some (.ok next)) :
        ∃ other ∈ entry :: rest, e = .combineInconsistentKeySources other.1 := by
      rw [foldlM_combineXpub_ok stepped] at failed
      obtain ⟨other, inside, names⟩ := ih failed
      exact ⟨other, .tail _ inside, names⟩
    rcases kept_or_taken_or_panics_or_refused map[entry.1]? entry.2 with kept | taken | panics | refused
    · exact later (combineXpub_of_kept kept)
    · exact later (combineXpub_of_taken taken)
    · rw [foldlM_combineXpub_panics (combineXpub_of_panics panics)] at failed
      contradiction
    · rw [foldlM_combineXpub_error (combineXpub_of_refused refused)] at failed
      exact ⟨entry, .head _, (Except.error.inj (Option.some.inj failed)).symm⟩

/-- Beyond a source that is mishandled, nothing gives the error of the rule. -/
theorem foldlM_combineXpub_of_mishandled (distinct : Distinct (entry :: rest))
    (mishandled : Mishandled map[entry.1]? entry.2) :
    ((entry :: rest).foldlM combineXpub map).run ≠
      some (.error (.combineInconsistentKeySources entry.1)) := by
  intro failed
  rcases kept_or_taken_or_panics_or_refused map[entry.1]? entry.2 with kept | taken | panics | refused
  · exact kept.not_mishandled mishandled
  · rw [foldlM_combineXpub_ok (combineXpub_of_taken taken)] at failed
    obtain ⟨other, inside, names⟩ := foldlM_combineXpub_names failed
    have same := CombineError.combineInconsistentKeySources.inj names
    exact (List.pairwise_cons.mp distinct).1 other inside same
  · rw [foldlM_combineXpub_panics (combineXpub_of_panics panics)] at failed
    contradiction
  · exact refused.not_mishandled mishandled

/-- The loop follows the rule exactly on the lists it is consistent with. -/
theorem foldlM_combineXpub_resolves_iff {map : BTreeMap Xpub KeySource} (distinct : Distinct entries) :
    (entries.foldlM combineXpub map).run = some (entries.foldlM resolveXpub map) ↔
      Consistent (fun xpub => map[xpub]?) entries := by
  induction entries generalizing map with
  | nil => exact iff_of_true rfl trivial
  | cons entry rest ih =>
    have later := (List.pairwise_cons.mp distinct).2
    rw [Consistent]
    by_cases mishandled : Mishandled map[entry.1]? entry.2
    · refine iff_of_false ?_ fun consistent => consistent.1 mishandled
      have rule : (entry :: rest).foldlM resolveXpub map =
          .error (.combineInconsistentKeySources entry.1) := by
        rw [List.foldlM_cons, resolveXpub_of_mishandled mishandled]
        rfl
      rw [rule]
      exact foldlM_combineXpub_of_mishandled distinct mishandled
    rw [and_iff_right mishandled]
    rcases kept_or_taken_or_panics_or_refused map[entry.1]? entry.2 with kept | taken | panics | refused
    · rw [or_iff_right kept.not_refused, foldlM_combineXpub_ok (combineXpub_of_kept kept),
        List.foldlM_cons, resolveXpub_of_kept kept]
      exact ih later
    · rw [or_iff_right taken.not_refused, foldlM_combineXpub_ok (combineXpub_of_taken taken),
        List.foldlM_cons, resolveXpub_of_taken taken mishandled]
      exact (ih later).trans (consistent_congr distinct.unseen)
    · obtain ⟨own, found, underflows⟩ := panics
      exact absurd ⟨own, found, .inl underflows⟩ mishandled
    · refine iff_of_true ?_ (.inl refused)
      rw [foldlM_combineXpub_error (combineXpub_of_refused refused), List.foldlM_cons,
        resolveXpub_of_refused refused]
      rfl

/-- The loop on the map in place: what it returns, and the map it leaves. -/
def combineXpubs (self : BTreeMap Xpub KeySource) :
    List (Xpub × KeySource) → Option (Except CombineError Unit × BTreeMap Xpub KeySource)
  | [] => some (.ok (), self)
  | entry :: rest => match (combineXpub self entry).run with
    | some (.ok self) => combineXpubs self rest
    | some (.error e) => some (.error e, self)
    | none => none

theorem combineXpubs_of_ok {next : BTreeMap Xpub KeySource}
    (stepped : (combineXpub map entry).run = some (.ok next)) :
    combineXpubs map (entry :: rest) = combineXpubs next rest := by
  rw [combineXpubs, stepped]

theorem combineXpubs_of_refused (refused : Refused map[entry.1]? entry.2) :
    combineXpubs map (entry :: rest) =
      some (.error (.combineInconsistentKeySources entry.1), map) := by
  rw [combineXpubs, combineXpub_of_refused refused]

theorem combineXpubs_of_panics (panics : Panics map[entry.1]? entry.2) :
    combineXpubs map (entry :: rest) = none := by
  rw [combineXpubs, combineXpub_of_panics panics]

theorem foldlM_combineXpub_eq (map : BTreeMap Xpub KeySource) (entries : List (Xpub × KeySource)) :
    (entries.foldlM combineXpub map).run =
      (combineXpubs map entries).map fun (result, after) => result.map fun _ => after := by
  induction entries generalizing map with
  | nil => rfl
  | cons entry rest ih =>
    rw [combineXpubs]
    rcases stepped : (combineXpub map entry).run with _ | e | next
    · exact foldlM_combineXpub_panics stepped
    · exact foldlM_combineXpub_error stepped
    · exact (foldlM_combineXpub_ok stepped).trans (ih next)

/-- The loop leaves the sources of other xpubs alone. -/
theorem combineXpubs_elsewhere {map final : BTreeMap Xpub KeySource} {xpub : Xpub}
    {result : Except CombineError Unit} (left : combineXpubs map entries = some (result, final))
    (elsewhere : ∀ entry ∈ entries, entry.1 ≠ xpub) : final[xpub]? = map[xpub]? := by
  induction entries generalizing map with
  | nil =>
    obtain ⟨_, rfl⟩ := Prod.mk.inj (Option.some.inj left)
    rfl
  | cons entry rest ih =>
    rw [List.forall_mem_cons] at elsewhere
    rcases kept_or_taken_or_panics_or_refused map[entry.1]? entry.2 with kept | taken | panics | refused
    · rw [combineXpubs_of_ok (combineXpub_of_kept kept)] at left
      exact ih left elsewhere.2
    · rw [combineXpubs_of_ok (combineXpub_of_taken taken)] at left
      exact (ih left elsewhere.2).trans (getElem?_insert_of_ne elsewhere.1)
    · rw [combineXpubs_of_panics panics] at left
      contradiction
    · rw [combineXpubs_of_refused refused] at left
      obtain ⟨_, rfl⟩ := Prod.mk.inj (Option.some.inj left)
      rfl

theorem combineXpubs_fails_iff {map : BTreeMap Xpub KeySource} (distinct : Distinct entries) :
    (∃ e final, combineXpubs map entries = some (.error e, final)) ↔
      Conflicts (fun xpub => map[xpub]?) entries := by
  induction entries generalizing map with
  | nil => exact iff_of_false (by simp [combineXpubs]) id
  | cons entry rest ih =>
    have later := (List.pairwise_cons.mp distinct).2
    rw [Conflicts]
    rcases kept_or_taken_or_panics_or_refused map[entry.1]? entry.2 with kept | taken | panics | refused
    · have runs : ¬ Panics map[entry.1]? entry.2 := by
        rintro ⟨own, found, underflows⟩
        exact kept.not_mishandled ⟨own, found, .inl underflows⟩
      rw [or_iff_right kept.not_refused, and_iff_right runs,
        combineXpubs_of_ok (combineXpub_of_kept kept)]
      exact ih later
    · rw [or_iff_right taken.not_refused, and_iff_right taken.not_panics,
        combineXpubs_of_ok (combineXpub_of_taken taken)]
      exact (ih later).trans (conflicts_congr distinct.unseen)
    · obtain ⟨own, found, underflows⟩ := panics
      refine iff_of_false ?_ ?_
      · simp [combineXpubs_of_panics ⟨own, found, underflows⟩]
      · rintro (refused | ⟨runs, _⟩)
        · exact refused.not_mishandled ⟨own, found, .inl underflows⟩
        · exact runs ⟨own, found, underflows⟩
    · exact iff_of_true ⟨_, _, combineXpubs_of_refused refused⟩ (.inl refused)

/-- A loop that fails leaves the map as it was exactly where it found every source in place. -/
theorem combineXpubs_unchanged_iff {map final : BTreeMap Xpub KeySource} {e : CombineError}
    (distinct : Distinct entries) (failed : combineXpubs map entries = some (.error e, final)) :
    final = map ↔ KeptUntilRefused (fun xpub => map[xpub]?) entries := by
  induction entries generalizing map with
  | nil => exact absurd (Prod.mk.inj (Option.some.inj failed)).1 nofun
  | cons entry rest ih =>
    obtain ⟨apart, later⟩ := List.pairwise_cons.mp distinct
    rw [KeptUntilRefused]
    rcases kept_or_taken_or_panics_or_refused map[entry.1]? entry.2 with kept | taken | panics | refused
    · rw [or_iff_right kept.not_refused, and_iff_right kept]
      rw [combineXpubs_of_ok (combineXpub_of_kept kept)] at failed
      exact ih later failed
    · refine iff_of_false ?_ ?_
      · rintro rfl
        rw [combineXpubs_of_ok (combineXpub_of_taken taken)] at failed
        have there := combineXpubs_elsewhere failed fun other inside => (apart other inside).symm
        rw [Std.ExtTreeMap.getElem?_insert_self] at there
        exact taken.not_kept ⟨entry.2, there, .inl rfl⟩
      · rintro (refused | ⟨kept, _⟩)
        · exact taken.not_refused refused
        · exact taken.not_kept kept
    · rw [combineXpubs_of_panics panics] at failed
      contradiction
    · rw [combineXpubs_of_refused refused] at failed
      obtain ⟨_, rfl⟩ := Prod.mk.inj (Option.some.inj failed)
      exact iff_of_true rfl (.inl refused)

end
section
variable [Secp256k1] [Hashes] {self other after : Psbt}

omit [Secp256k1] [Hashes] in
theorem max_eq_self_iff (first second : UInt32) : max first second = first ↔ second ≤ first := by
  have chosen : max first second = if first ≤ second then second else first := rfl
  rw [chosen]
  split_ifs with older
  · rw [← UInt32.toNat_inj, UInt32.le_iff_toNat_le]
    have := UInt32.le_iff_toNat_le.mp older
    omega
  · refine iff_of_true rfl ?_
    rw [UInt32.le_iff_toNat_le] at older ⊢
    omega

/-- `combine` on the PSBT in place: what it returns, and the PSBT it leaves. -/
def combineInPlace (self other : Psbt) : Option (Except CombineError Unit × Psbt) :=
  if self.unsignedTx ≠ other.unsignedTx then
    some (.error (.unexpectedUnsignedTx self.unsignedTx other.unsignedTx), self)
  else
    let self := { self with version := max self.version other.version }
    match combineXpubs self.xpub other.xpub.toList with
    | none => none
    | some (.error e, xpub) => some (.error e, { self with xpub })
    | some (.ok (), xpub) => some (.ok (), { self with
        xpub
        proprietary := self.proprietary ∪ other.proprietary
        unknown := self.unknown ∪ other.unknown
        mwebTxOffset := self.mwebTxOffset.or other.mwebTxOffset
        mwebStealthOffset := self.mwebStealthOffset.or other.mwebStealthOffset
        mwebKernels := mergeVec MwebKernel.default MwebKernel.combine self.mwebKernels
          other.mwebKernels
        mwebInputs := mergeVec MwebInput.table.empty MwebInput.combine self.mwebInputs
          other.mwebInputs
        mwebOutputs := mergeVec MwebOutput.table.empty MwebOutput.combine self.mwebOutputs
          other.mwebOutputs
        inputs := mergeZip Input.combine self.inputs other.inputs
        outputs := mergeZip Output.combine self.outputs other.outputs })

/-- `combine` is what `combineInPlace` returns, with the PSBT it leaves on success. -/
theorem combine_eq_inPlace (self other : Psbt) :
    (self.combine other).run =
      (self.combineInPlace other).map fun (result, after) => result.map fun _ => after := by
  rw [combine, combineInPlace]
  split_ifs
  · rfl
  · have folded := foldlM_combineXpub_eq self.xpub other.xpub.toList
    rcases left : combineXpubs self.xpub other.xpub.toList with _ | ⟨e | ⟨⟩, xpub⟩ <;>
      rw [left] at folded
    · have panics : other.xpub.toList.foldlM combineXpub self.xpub = ExceptT.mk none := folded
      rw [panics]
      simp only [left]
      rfl
    · have throws : other.xpub.toList.foldlM combineXpub self.xpub = throw e := folded
      rw [throws]
      simp only [left]
      rfl
    · have returns : other.xpub.toList.foldlM combineXpub self.xpub = pure xpub := folded
      rw [returns]
      simp only [left]
      rfl

/-- The xpubs of the combination, or its error, are those of the rule. -/
def ResolvesXpubs (self other : Psbt) : Prop :=
  (self.combine other).run.map (Except.map xpub) =
    some (other.xpub.toList.foldlM resolveXpub self.xpub)

theorem combine_xpub (same : self.unsignedTx = other.unsignedTx) :
    (self.combine other).run.map (Except.map xpub) =
      (other.xpub.toList.foldlM combineXpub self.xpub).run := by
  rw [combine, if_neg (not_not.mpr same)]
  rcases folded : other.xpub.toList.foldlM combineXpub self.xpub with _ | e | xpub <;> rfl

/-- Sources of one xpub are settled by the rule unless, before one is refused, a path is shorter
than the other one without ending it, or only the fingerprints differ. -/
theorem resolvesXpubs_iff (same : self.unsignedTx = other.unsignedTx) :
    ResolvesXpubs self other ↔ Consistent (fun xpub => self.xpub[xpub]?) other.xpub.toList := by
  rw [ResolvesXpubs, combine_xpub same]
  exact foldlM_combineXpub_resolves_iff (distinct_toList other.xpub)

/-- A combination that fails changes nothing. -/
def FailsUntouched (self other : Psbt) : Prop :=
  ∀ e after, self.combineInPlace other = some (.error e, after) → after = self

/-- A combination that fails has changed nothing exactly if the version did not grow and every
source before the refused one was there already. -/
theorem failsUntouched_iff (self other : Psbt) : FailsUntouched self other ↔
    (self.unsignedTx = other.unsignedTx →
      Conflicts (fun xpub => self.xpub[xpub]?) other.xpub.toList →
        other.version ≤ self.version ∧
          KeptUntilRefused (fun xpub => self.xpub[xpub]?) other.xpub.toList) := by
  have distinct := distinct_toList other.xpub
  by_cases same : self.unsignedTx = other.unsignedTx
  · rw [imp_iff_right same]
    have leaves {e : CombineError} {xpub : BTreeMap Xpub KeySource}
        (failed : combineXpubs self.xpub other.xpub.toList = some (.error e, xpub)) :
        self.combineInPlace other =
          some (.error e, { self with version := max self.version other.version, xpub }) := by
      rw [combineInPlace, if_neg (not_not.mpr same)]
      simp only [failed]
    have untouched (xpub : BTreeMap Xpub KeySource) :
        { self with version := max self.version other.version, xpub } = self ↔
          other.version ≤ self.version ∧ xpub = self.xpub := by
      constructor
      · intro unchanged
        exact ⟨(max_eq_self_iff _ _).mp (congrArg version unchanged), congrArg Psbt.xpub unchanged⟩
      · rintro ⟨older, rfl⟩
        rw [(max_eq_self_iff _ _).mpr older]
    constructor
    · intro fails conflicts
      obtain ⟨e, xpub, failed⟩ := (combineXpubs_fails_iff distinct).mpr conflicts
      obtain ⟨older, unchanged⟩ := (untouched xpub).mp (fails e _ (leaves failed))
      exact ⟨older, (combineXpubs_unchanged_iff distinct failed).mp unchanged⟩
    · intro holds e after returned
      rcases left : combineXpubs self.xpub other.xpub.toList with _ | ⟨e' | ⟨⟩, xpub⟩
      · rw [combineInPlace, if_neg (not_not.mpr same)] at returned
        simp only [left] at returned
        contradiction
      · obtain ⟨older, kept⟩ := holds ((combineXpubs_fails_iff distinct).mp ⟨e', xpub, left⟩)
        obtain ⟨_, rfl⟩ := Prod.mk.inj (Option.some.inj ((leaves left).symm.trans returned))
        exact (untouched xpub).mpr ⟨older, (combineXpubs_unchanged_iff distinct left).mpr kept⟩
      · rw [combineInPlace, if_neg (not_not.mpr same)] at returned
        simp only [left] at returned
        exact absurd (Prod.mk.inj (Option.some.inj returned)).1 nofun
  · refine iff_of_true (fun e after returned => ?_) fun equal => absurd equal same
    rw [combineInPlace, if_pos same] at returned
    exact (Prod.mk.inj (Option.some.inj returned)).2.symm

end
section
attribute [local instance] Secp256k1.generatorOnly Hashes.ofEmpty

def firstChild : ChildNumber := .fromU32 0
def secondChild : ChildNumber := .fromU32 1

/-- The public key of a master key. -/
def masterXpub : Xpub where
  network := .main
  depth := 0
  parentFingerprint := ⟨List.replicate 4 0, rfl⟩
  childNumber := firstChild
  publicKey := ()
  chainCode := ⟨List.replicate 32 17, rfl⟩

/-- The payment, with a source for the master key. -/
def originating (version : UInt32) (fingerprint : UInt8) (path : DerivationPath) : Psbt :=
  { paying .sighashType none MwebKernel.default with
    version
    xpub := Std.ExtTreeMap.empty.insert masterXpub (⟨List.replicate 4 fingerprint, rfl⟩, path) }

theorem originating_toList (version : UInt32) (fingerprint : UInt8) (path : DerivationPath) :
    (originating version fingerprint path).xpub.toList =
      [(masterXpub, ⟨List.replicate 4 fingerprint, rfl⟩, path)] := by
  rfl

theorem originating_unsignedTx (version version' : UInt32) (fingerprint fingerprint' : UInt8)
    (path path' : DerivationPath) : (originating version fingerprint path).unsignedTx =
      (originating version' fingerprint' path').unsignedTx := by
  rfl

/-- Own path `0`, given path `1/0`: the longer one is taken. -/
theorem originating_resolvesXpubs :
    (originating 0 1 [firstChild]).unsignedTx = (originating 0 1 [secondChild, firstChild]).unsignedTx ∧
      ResolvesXpubs (originating 0 1 [firstChild]) (originating 0 1 [secondChild, firstChild]) := by
  have same := originating_unsignedTx 0 0 1 1 [firstChild] [secondChild, firstChild]
  refine ⟨same, (resolvesXpubs_iff same).mpr ?_⟩
  rw [originating_toList]
  refine ⟨?_, .inr trivial⟩
  rintro ⟨own, found, wrong⟩
  obtain rfl := Option.some.inj (show some (_, [firstChild]) = some own from found)
  rcases wrong with ⟨shorter, _⟩ | ⟨same, _⟩
  · exact absurd shorter (by decide)
  · exact absurd same (by decide)

/-- The fingerprint of the same derivation is replaced, and a shorter path that is not the end of
the longer one panics. -/
theorem originating_not_resolvesXpubs :
    ¬ ResolvesXpubs (originating 0 1 [firstChild]) (originating 0 2 [firstChild]) ∧
      ((originating 0 1 [firstChild, firstChild]).combine (originating 0 1 [secondChild])).run =
        none := by
  constructor
  · intro resolves
    rw [ResolvesXpubs, combine_xpub (originating_unsignedTx ..), originating_toList] at resolves
    have mixed (map : BTreeMap Xpub KeySource) (e : CombineError) :
        some (Except.ok map) ≠ some (.error e) := nofun
    exact mixed _ _ resolves
  · have panics := combine_xpub (originating_unsignedTx 0 0 1 1 [firstChild, firstChild] [secondChild])
    rw [originating_toList] at panics
    exact Option.map_eq_none_iff.mp panics

/-- The paths `0` and `1` contradict each other, and the version is kept. -/
theorem originating_combineInPlace :
    ∃ e after, (originating 0 1 [firstChild]).combineInPlace (originating 1 1 [secondChild]) =
      some (.error e, after) ∧ after.version = 1 := by
  exact ⟨_, _, rfl, rfl⟩

theorem originating_not_failsUntouched :
    ¬ FailsUntouched (originating 0 1 [firstChild]) (originating 1 1 [secondChild]) := by
  intro untouched
  obtain ⟨e, after, failed, changed⟩ := originating_combineInPlace
  rw [untouched e after failed] at changed
  contradiction

end
end Litecoin.Psbt
