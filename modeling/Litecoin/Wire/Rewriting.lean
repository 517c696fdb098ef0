import Litecoin.Wire.Emission

/-! Readers that accept more than the writer writes. Beside the reader of the code stands
a strict one, which accepts a value only in the form the writer gives it. -/
namespace Litecoin.Wire

namespace Emission

theorem append_assoc (first second third : Emission ε) :
    first ++ second ++ third = first ++ (second ++ third) := by
  change append (append _ _) _ = append _ (append _ _)
  cases first with
  | error e => rfl
  | ok first =>
    cases second with
    | error e => rfl
    | ok second =>
      cases third with
      | error e => rfl
      | ok third => simp only [append, Nat.add_assoc, List.append_assoc]

@[simp] theorem append_nothing (emission : Emission ε) : emission ++ written [] = emission := by
  change append _ _ = _
  cases emission with
  | error e => rfl
  | ok emitted => simp [append, written]

@[simp] theorem nothing_append (emission : Emission ε) : written [] ++ emission = emission := by
  change append _ _ = _
  cases emission with
  | error e => rfl
  | ok emitted => simp [append, written]

/-- The count that is reported is that of the bytes that are written. -/
def Counts (emission : Emission ε) : Prop :=
  ∀ count bytes, emission = .ok (count, bytes) → count = bytes.length

theorem Counts.written_of_ok {emission : Emission ε} (counts : emission.Counts)
    (emitted : emission = .ok (count, bytes)) : emission = written bytes := by
  rw [emitted, written, counts count bytes emitted]

theorem counts_written (bytes : Bytes) : (written bytes : Emission ε).Counts := by
  rintro _ _ ⟨⟩
  rfl

theorem Counts.append {first second : Emission ε} (counts : first.Counts)
    (counts' : second.Counts) : (first ++ second).Counts := by
  intro count bytes emitted
  obtain ⟨count₁, bytes₁, count₂, bytes₂, one, two, rfl, rfl⟩ := append_eq_ok.mp emitted
  rw [counts _ _ one, counts' _ _ two, List.length_append]

theorem Counts.each {emit : α → Emission ε} (counts : ∀ a, (emit a).Counts) (values : List α) :
    (each emit values).Counts := by
  induction values with
  | nil => exact counts_written []
  | cons a rest ih => exact (counts a).append ih

theorem Counts.gated {emission : Emission ε} (counts : emission.Counts) (on : Bool) :
    (emission.gated on).Counts := by
  cases on with
  | false => exact counts_written []
  | true => exact counts

end Emission

/-- Reads as `d` does and fails with `e` when the bytes it takes up lack the form. -/
def Decoder.inForm (form : Bytes → Bool) (e : ε) (d : Decoder ε α) : Decoder ε α := fun bytes =>
  match d bytes with
  | .ok (a, rest) => if form (bytes.take (bytes.length - rest.length)) then .ok (a, rest) else .error e
  | .error e => .error e

theorem Decoder.inForm_eq_ok {form : Bytes → Bool} {e : ε} {d : Decoder ε α} :
    inForm form e d bytes = .ok (a, rest) ↔
      d bytes = .ok (a, rest) ∧ form (bytes.take (bytes.length - rest.length)) = true := by
  rw [inForm]
  cases d bytes with
  | error e => simp
  | ok result =>
    obtain ⟨b, left⟩ := result
    simp only
    split
    · rename_i formed
      simp only [Except.ok.injEq, Prod.mk.injEq]
      constructor
      · rintro ⟨rfl, rfl⟩
        exact ⟨⟨rfl, rfl⟩, formed⟩
      · exact And.left
    · rename_i unformed
      simp only [Except.ok.injEq, Prod.mk.injEq, reduceCtorEq, false_iff, not_and]
      rintro ⟨rfl, rfl⟩
      exact unformed

/-- The value `b` that `d` read in front of `rest` is written as an image of the length of
the bytes it was read from. The image reads back, and only the image is strict. -/
structure Rewritten (emit : β → Emission δ) (d strict : Decoder ε β) (bytes : Bytes) (b : β)
    (rest image : Bytes) : Prop where
  emitted : emit b = .written image
  length : image.length + rest.length = bytes.length
  reread : ∀ suffix, d (image ++ suffix) = .ok (b, suffix)
  strict_iff : strict bytes = .ok (b, rest) ↔ bytes = image ++ rest

/-- Every value `d` reads is rewritten, and `strict` reads nothing that `d` does not. -/
structure Rewrites (emit : β → Emission δ) (d strict : Decoder ε β) (Known : β → Prop) : Prop where
  known : d bytes = .ok (b, rest) → Known b
  rewritten : d bytes = .ok (b, rest) → ∃ image, Rewritten emit d strict bytes b rest image
  sound : strict bytes = .ok result → d bytes = .ok result

namespace Rewrites
variable {emit : β → Emission δ} {d strict : Decoder ε β} {Known : β → Prop}

/-- An exact reader is its own strict reader. -/
theorem ofReads {wire : β → Bytes} {emit : β → Emission δ} (reads : Reads d wire Known)
    (emits : ∀ b, Known b → emit b = .written (wire b)) : Rewrites emit d d Known where
  known read := ((reads _ _ _).mp read).1
  rewritten {bytes b rest} read := by
    obtain ⟨valid, rfl⟩ := (reads _ _ _).mp read
    refine ⟨wire b, emits b valid, ?_, reads.read valid, ?_⟩
    · rw [List.length_append]
    · exact iff_of_true read rfl
  sound read := read

theorem weaken (rewrites : Rewrites emit d strict Known) {emit' : β → Emission δ}
    {Known' : β → Prop} (same : ∀ b, Known b → Known' b ∧ emit' b = emit b) :
    Rewrites emit' d strict Known' where
  known read := (same _ (rewrites.known read)).1
  rewritten read := by
    obtain ⟨image, emitted, length, reread, strictly⟩ := rewrites.rewritten read
    exact ⟨image, by rw [(same _ (rewrites.known read)).2, emitted], length, reread, strictly⟩
  sound := rewrites.sound

theorem congr (rewrites : Rewrites emit d strict Known) {emit' : β → Emission δ}
    (same : ∀ b, emit' b = emit b) : Rewrites emit' d strict Known :=
  rewrites.weaken fun b valid => ⟨valid, same b⟩

/-- A first part decides how the rest is read. -/
theorem bind {first strictFirst : Decoder ε α} {emitFirst : α → Emission δ} {First : α → Prop}
    {next strictNext : α → Decoder ε β} {emitNext : α → β → Emission δ} {Next : α → β → Prop}
    (head : Rewrites emitFirst first strictFirst First)
    (tail : ∀ a, First a → Rewrites (emitNext a) (next a) (strictNext a) (Next a))
    (join : ∀ a b, First a → Next a b → Known b ∧ emit b = emitFirst a ++ emitNext a b) :
    Rewrites emit (first >>= next) (strictFirst >>= strictNext) Known where
  known read := by
    obtain ⟨a, middle, readFirst, readNext⟩ := Decoder.bind_eq_ok.mp read
    have valid := head.known readFirst
    exact (join a _ valid ((tail a valid).known readNext)).1
  rewritten {bytes b rest} read := by
    obtain ⟨a, middle, readFirst, readNext⟩ := Decoder.bind_eq_ok.mp read
    have valid := head.known readFirst
    have joined := (join a b valid ((tail a valid).known readNext)).2
    obtain ⟨imageFirst, firstEmitted, firstLength, firstReread, firstStrict⟩ :=
      head.rewritten readFirst
    obtain ⟨imageNext, nextEmitted, nextLength, nextReread, nextStrict⟩ :=
      (tail a valid).rewritten readNext
    refine ⟨imageFirst ++ imageNext, ?_, ?_, fun suffix => ?_, ?_⟩
    · rw [joined, firstEmitted, nextEmitted, Emission.written_append]
    · rw [List.length_append]
      omega
    · rw [List.append_assoc, Decoder.bind_eq_ok]
      exact ⟨a, _, firstReread _, nextReread suffix⟩
    · rw [Decoder.bind_eq_ok]
      constructor
      · rintro ⟨a', middle', strictlyFirst, strictlyNext⟩
        have same := (head.sound strictlyFirst).symm.trans readFirst
        obtain ⟨rfl, rfl⟩ := Prod.mk.inj (Except.ok.inj same)
        rw [firstStrict.mp strictlyFirst, nextStrict.mp strictlyNext, List.append_assoc]
      · rintro rfl
        rw [List.append_assoc] at readFirst firstStrict ⊢
        -- the image of the first part reads back, so the second part starts right after it
        have same := readFirst.symm.trans (firstReread (imageNext ++ rest))
        obtain ⟨-, rfl⟩ := Prod.mk.inj (Except.ok.inj same)
        exact ⟨a, _, firstStrict.mpr rfl, nextStrict.mpr rfl⟩
  sound {bytes result} read := by
    obtain ⟨b, rest⟩ := result
    obtain ⟨a, middle, readFirst, readNext⟩ := Decoder.bind_eq_ok.mp read
    have valid := head.known (head.sound readFirst)
    exact Decoder.bind_eq_ok.mpr ⟨a, middle, head.sound readFirst, (tail a valid).sound readNext⟩

/-- The field `project` comes next. -/
theorem field {first strictFirst : Decoder ε α} {emitFirst : α → Emission δ} {First : α → Prop}
    {next strictNext : α → Decoder ε β} {emitNext : β → Emission δ} (project : β → α)
    (head : Rewrites emitFirst first strictFirst First)
    (tail : ∀ a, First a →
      Rewrites emitNext (next a) (strictNext a) (fun b => Known b ∧ project b = a)) :
    Rewrites (fun b => emitFirst (project b) ++ emitNext b) (first >>= next)
      (strictFirst >>= strictNext) Known :=
  head.bind tail fun a b _ fixed => ⟨fixed.1, by rw [fixed.2]⟩

/-- There is nothing left to read. -/
theorem done {b : β} (known : Known b) :
    Rewrites (fun _ => (.written [] : Emission δ)) (pure b : Decoder ε β) (pure b) Known where
  known read := by
    obtain ⟨rfl, -⟩ := Decoder.pure_eq_ok.mp read
    exact known
  rewritten read := by
    obtain ⟨rfl, rfl⟩ := Decoder.pure_eq_ok.mp read
    exact ⟨[], rfl, Nat.zero_add _, fun _ => rfl, iff_of_true rfl rfl⟩
  sound read := read

/-- A value without a form of its own: it is made of what was read. -/
theorem finish {emit' : γ → Emission δ} {Known' : γ → Prop}
    (rewrites : Rewrites emit d strict Known) (f : β → γ)
    (same : ∀ b, Known b → Known' (f b) ∧ emit' (f b) = emit b) :
    Rewrites emit' (d >>= fun b => pure (f b)) (strict >>= fun b => pure (f b)) Known' := by
  have last (b : β) (_ : Known b) :
      Rewrites (fun _ => (.written [] : Emission δ)) (pure (f b) : Decoder ε γ) (pure (f b))
        (fun c => c = f b) := done rfl
  refine rewrites.bind last fun b c valid fixed => ?_
  subst fixed
  obtain ⟨known, emitted⟩ := same b valid
  exact ⟨known, by rw [emitted, Emission.append_nothing]⟩

theorem map {emit' : γ → Emission δ} {Known' : γ → Prop} (rewrites : Rewrites emit d strict Known)
    (f : β → γ) (same : ∀ b, Known b → Known' (f b) ∧ emit' (f b) = emit b) :
    Rewrites emit' (f <$> d) (f <$> strict) Known' :=
  rewrites.finish f same

/-- The last field is `project`. -/
theorem last {Known' : γ → Prop} (project : γ → β) (rewrites : Rewrites emit d strict Known) (f : β → γ)
    (known : ∀ b, Known b → Known' (f b) ∧ project (f b) = b) :
    Rewrites (fun c => emit (project c)) (d >>= fun b => pure (f b))
      (strict >>= fun b => pure (f b)) Known' :=
  rewrites.finish f fun b valid => ⟨(known b valid).1, by rw [(known b valid).2]⟩

theorem fail (e : ε) : Rewrites emit (Decoder.fail e) (Decoder.fail e) Known where
  known read := absurd read (by simp)
  rewritten read := absurd read (by simp)
  sound read := read

/-- A check of what has been read so far. -/
theorem ite {c : Prop} [Decidable c] {d' strict' : Decoder ε β}
    (yes : c → Rewrites emit d strict Known) (no : ¬ c → Rewrites emit d' strict' Known) :
    Rewrites emit (if c then d else d') (if c then strict else strict') Known := by
  split
  · exact yes ‹_›
  · exact no ‹_›

theorem times (rewrites : Rewrites emit d strict Known) (n : Nat) :
    Rewrites (fun values => Emission.each emit values.val) (d.times n) (strict.times n)
      (fun values => ∀ b ∈ values.val, Known b) := by
  induction n with
  | zero =>
    have empty : Rewrites (fun _ => (.written [] : Emission δ)) (d.times 0) (strict.times 0)
      (fun values => values.val = []) := done rfl
    refine empty.weaken ?_
    rintro ⟨values, _⟩ rfl
    exact ⟨by simp, rfl⟩
  | succ n ih =>
    have others (b : β) (_ : Known b) :
        Rewrites (fun values => Emission.each emit values.val.tail)
          (d.times n >>= fun rest => pure ⟨b :: rest.val, congrArg (· + 1) rest.property⟩)
          (strict.times n >>= fun rest => pure ⟨b :: rest.val, congrArg (· + 1) rest.property⟩)
          (fun values : { values : List β // values.length = n + 1 } =>
            ∃ rest, values.val = b :: rest ∧ ∀ b ∈ rest, Known b) := by
      exact ih.finish _ fun rest valid => ⟨⟨rest.val, rfl, valid⟩, rfl⟩
    refine rewrites.bind others ?_
    rintro b ⟨values, count⟩ valid ⟨rest, rfl, others⟩
    exact ⟨List.forall_mem_cons.mpr ⟨valid, others⟩, rfl⟩

/-- Images are as long as what they were read from, so a limit cuts off neither of them
or both. -/
theorem take (rewrites : Rewrites emit d strict Known) (limit : Nat) :
    Rewrites emit (d.take limit) (strict.take limit) Known where
  known read := by
    obtain ⟨left, read, _⟩ := Decoder.take_eq_ok.mp read
    exact rewrites.known read
  rewritten {bytes b rest} read := by
    obtain ⟨left, readCut, rfl⟩ := Decoder.take_eq_ok.mp read
    obtain ⟨image, emitted, length, reread, strictly⟩ := rewrites.rewritten readCut
    rw [List.length_take] at length
    have rejoined : bytes = image ++ (left ++ bytes.drop limit) ↔ bytes.take limit = image ++ left := by
      constructor
      · intro same
        have cut : (image ++ left).length = (bytes.take limit).length := by
          rw [List.length_append, List.length_take, length]
        rw [← List.append_assoc] at same
        have parts : bytes.take limit ++ bytes.drop limit = (image ++ left) ++ bytes.drop limit := by
          rwa [List.take_append_drop]
        exact (List.append_inj parts cut.symm).1
      · intro same
        rw [← List.append_assoc, ← same, List.take_append_drop]
    refine ⟨image, emitted, ?_, fun suffix => ?_, ?_⟩
    · rw [List.length_append, List.length_drop]
      omega
    · have short : image.length ≤ limit := by omega
      rw [Decoder.take_eq_ok]
      refine ⟨suffix.take (limit - image.length), ?_, ?_⟩
      · rw [List.take_append, List.take_of_length_le short]
        exact reread _
      · rw [List.drop_append, List.drop_of_length_le short, List.nil_append, List.take_append_drop]
    · rw [Decoder.take_eq_ok, rejoined]
      constructor
      · rintro ⟨left', strictlyCut, same⟩
        obtain rfl := List.append_cancel_right same
        exact strictly.mp strictlyCut
      · intro same
        exact ⟨left, strictly.mpr same, rfl⟩
  sound {bytes result} read := by
    obtain ⟨b, rest⟩ := result
    obtain ⟨left, read, same⟩ := Decoder.take_eq_ok.mp read
    exact Decoder.take_eq_ok.mpr ⟨left, rewrites.sound read, same⟩

end Rewrites
end Litecoin.Wire
