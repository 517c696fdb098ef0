import Litecoin.Wire.Record

/-! Decoders that get at their bytes only by asking for so many of them at a time: what such a
program reads of a byte string, and programs that are known to read what a given decoder does. -/
namespace Litecoin.Wire

theorem Decoder.bind_assoc (d : Decoder ε α) (next : α → Decoder ε β) (last : β → Decoder ε γ) :
    d >>= (fun a => next a >>= last) = (d >>= next) >>= last := by
  funext bytes
  simp only [Bind.bind]
  cases d bytes with
  | error e => rfl
  | ok read => rfl

theorem Decoder.exact_eq_error {n : Nat} {e e' : ε} {bytes : Bytes} :
    Decoder.exact n e bytes = .error e' ↔ bytes.length < n ∧ e = e' := by
  rw [exact]
  split
  case isTrue enough =>
    refine ⟨fun returned => ?_, fun short => absurd short.1 (Nat.not_lt.mpr enough)⟩
    contradiction
  case isFalse short =>
    rw [Except.error.injEq]
    exact ⟨fun same => ⟨Nat.not_le.mp short, same⟩, And.right⟩

theorem Decoder.map_injective {g : β → α} (injective : ∀ b c, g b = g c → b = c)
    {d d' : Decoder ε β} (same : g <$> d = g <$> d') : d = d' := by
  funext bytes
  have alike := congrFun same bytes
  rw [map_apply, map_apply] at alike
  cases left : d bytes with
  | error e =>
    cases right : d' bytes with
    | error e' =>
      rw [left, right] at alike
      exact congrArg Except.error (Except.error.inj alike)
    | ok read =>
      rw [left, right] at alike
      contradiction
  | ok read =>
    cases right : d' bytes with
    | error e' =>
      rw [left, right] at alike
      contradiction
    | ok read' =>
      rw [left, right] at alike
      obtain ⟨values, rests⟩ := Prod.mk.inj (Except.ok.inj alike)
      exact congrArg Except.ok (Prod.ext (injective _ _ values) rests)

/-- A computation that goes on with exactly so many bytes, if there are as many. -/
inductive Program (ε α : Type) : Type where
  | done (a : α)
  | fail (e : ε)
  | read (n : Nat) (next : { chunk : Bytes // chunk.length = n } → Program ε α)

namespace Program

def bind : Program ε α → (α → Program ε β) → Program ε β
  | done a, next => next a
  | fail e, _ => fail e
  | read n chunks, next => read n fun chunk => (chunks chunk).bind next

/-- Reads from the front of a byte string; `eof` is reported where it is too short. -/
def slice (eof : ε) : Program ε α → Decoder ε α
  | done a => pure a
  | fail e => Decoder.fail e
  | read n next => do
    let chunk ← Decoder.exact n eof
    slice eof (next chunk)

/-- The program asks for less than `bound` bytes at a time, and reports errors of its own only. -/
def Proper (Own : ε → Prop) (bound : Nat) : Program ε α → Prop
  | done _ => True
  | fail e => Own e
  | read n next => n < bound ∧ ∀ chunk, (next chunk).Proper Own bound

theorem slice_bind (eof : ε) (p : Program ε α) (next : α → Program ε β) :
    (p.bind next).slice eof = p.slice eof >>= fun a => (next a).slice eof := by
  induction p with
  | done a => rfl
  | fail e => rfl
  | read n chunks ih =>
    have tails : (fun chunk => ((chunks chunk).bind next).slice eof) =
        fun chunk => (chunks chunk).slice eof >>= fun a => (next a).slice eof := funext ih
    change Decoder.exact n eof >>= (fun chunk => ((chunks chunk).bind next).slice eof) = _
    rw [tails]
    exact Decoder.bind_assoc _ _ _

theorem Proper.bind {Own : ε → Prop} {p : Program ε α} {next : α → Program ε β}
    (proper : p.Proper Own bound) (others : ∀ a, (next a).Proper Own bound) :
    (p.bind next).Proper Own bound := by
  induction p with
  | done a => exact others a
  | fail e => exact proper
  | read n chunks ih => exact ⟨proper.1, fun chunk => ih chunk (proper.2 chunk)⟩

/-- Reports what `f` makes of a value and of the proof that the program returns it. -/
def attach {P : α → Prop} (eof : ε) (f : (a : α) → P a → β) : (p : Program ε α) →
    (∀ bytes a rest, p.slice eof bytes = .ok (a, rest) → P a) → Program ε β
  | done a, returns => done (f a (returns [] a [] rfl))
  | fail e, _ => fail e
  | read n next, returns => read n fun chunk => (next chunk).attach eof f fun bytes a rest ran =>
      returns (chunk.val ++ bytes) a rest (Decoder.bind_eq_ok.mpr
        ⟨chunk, bytes, Decoder.exact_eq_ok.mpr rfl, ran⟩)

theorem slice_attach {P : α → Prop} {eof : ε} {f : (a : α) → P a → β} {g : β → α}
    (inverse : ∀ a holds, g (f a holds) = a) {p : Program ε α}
    (returns : ∀ bytes a rest, p.slice eof bytes = .ok (a, rest) → P a) :
    g <$> (p.attach eof f returns).slice eof = p.slice eof := by
  induction p with
  | done a =>
    change (Pure.pure (g (f a _)) : Decoder ε α) = Pure.pure a
    rw [inverse]
  | fail e => rfl
  | read n next ih =>
    change Decoder.exact n eof >>= _ >>= _ = _
    rw [← Decoder.bind_assoc]
    exact congrArg (Decoder.exact n eof >>= ·) (funext fun chunk => ih chunk _)

theorem Proper.attach {Own : ε → Prop} {P : α → Prop} {eof : ε} {f : (a : α) → P a → β}
    {p : Program ε α} (proper : p.Proper Own bound)
    (returns : ∀ bytes a rest, p.slice eof bytes = .ok (a, rest) → P a) :
    (p.attach eof f returns).Proper Own bound := by
  induction p with
  | done a => trivial
  | fail e => exact proper
  | read n next ih => exact ⟨proper.1, fun chunk => ih chunk (proper.2 chunk) _⟩

end Program

/-- A program that reads of a byte string what `d` does. -/
structure Programmed (eof : ε) (Own : ε → Prop) (bound : Nat) (d : Decoder ε α) where
  program : Program ε α
  slice_eq : program.slice eof = d
  proper : program.Proper Own bound

namespace Programmed
variable {eof : ε} {Own : ε → Prop} {bound : Nat}

def pure (a : α) : Programmed eof Own bound (Pure.pure a) := ⟨.done a, rfl, trivial⟩

def fail (e : ε) (own : Own e) : Programmed eof Own bound (Decoder.fail e : Decoder ε α) :=
  ⟨.fail e, rfl, own⟩

def exact (n : Nat) (small : n < bound) : Programmed eof Own bound (Decoder.exact n eof) where
  program := .read n .done
  slice_eq := by
    funext bytes
    simp only [Program.slice, Bind.bind, Pure.pure]
    cases Decoder.exact n eof bytes with
    | error e => rfl
    | ok read => rfl
  proper := ⟨small, fun _ => trivial⟩

def bind {d : Decoder ε α} {next : α → Decoder ε β} (p : Programmed eof Own bound d)
    (q : (a : α) → Programmed eof Own bound (next a)) : Programmed eof Own bound (d >>= next) where
  program := p.program.bind fun a => (q a).program
  slice_eq := by
    have tails : (fun a => (q a).program.slice eof) = next := funext fun a => (q a).slice_eq
    rw [Program.slice_bind, p.slice_eq, tails]
  proper := p.proper.bind fun a => (q a).proper

def map {d : Decoder ε α} (f : α → β) (p : Programmed eof Own bound d) : Programmed eof Own bound (f <$> d) :=
  p.bind fun a => pure (f a)

def ite {c : Prop} [Decidable c] {d₁ d₂ : Decoder ε α} (yes : c → Programmed eof Own bound d₁)
    (no : ¬ c → Programmed eof Own bound d₂) : Programmed eof Own bound (if c then d₁ else d₂) where
  program := if holds : c then (yes holds).program else (no holds).program
  slice_eq := by
    split
    case isTrue holds => exact (yes holds).slice_eq
    case isFalse fails => exact (no fails).slice_eq
  proper := by
    split
    case isTrue holds => exact (yes holds).proper
    case isFalse fails => exact (no fails).proper

def guard (accepted : Bool) (e : ε) (own : Own e) : Programmed eof Own bound (Decoder.guard accepted e) :=
  ite (fun _ => pure ()) fun _ => fail e own

def times {d : Decoder ε α} (p : Programmed eof Own bound d) : (n : Nat) → Programmed eof Own bound (d.times n)
  | 0 => pure _
  | n + 1 => p.bind fun _ => (p.times n).bind fun _ => pure _

def gated {d : Decoder ε α} (on : Bool) (p : Programmed eof Own bound d) : Programmed eof Own bound (d.gated on) :=
  ite (fun _ => p.map some) fun _ => pure none

def orAbsent {d : Decoder ε α} (on : Bool) (p : Programmed eof Own bound d) (absent : α) :
    Programmed eof Own bound (d.orAbsent on absent) :=
  ite (fun _ => p) fun _ => pure absent

/-- A program for the values of a type with an invariant, from one for what they are made of. -/
def attach {d : Decoder ε α} {d' : Decoder ε β} {P : α → Prop} (p : Programmed eof Own bound d)
    (f : (a : α) → P a → β) (g : β → α) (inverse : ∀ a holds, g (f a holds) = a)
    (injective : ∀ b c, g b = g c → b = c) (same : g <$> d' = d)
    (returns : ∀ bytes a rest, d bytes = .ok (a, rest) → P a) : Programmed eof Own bound d' where
  program := p.program.attach eof f fun bytes a rest ran =>
    returns bytes a rest (p.slice_eq ▸ ran)
  slice_eq := by
    have returns' : ∀ bytes a rest, p.program.slice eof bytes = .ok (a, rest) → P a := by
      rw [p.slice_eq]
      exact returns
    have made := Program.slice_attach (f := f) inverse returns'
    exact Decoder.map_injective injective (made.trans (p.slice_eq.trans same.symm))
  proper := p.proper.attach _

end Programmed
end Litecoin.Wire
