import Litecoin.Bip158.Untrusted

/-! Filters from untrusted peers: when matching a query leaves the 64 bits of its numbers.
Only the number of elements can do it in a filter that fits in memory. -/
namespace Litecoin.Bip158
open Wire Consensus

/-- The two questions that are asked of a filter. -/
inductive Question
  | any
  | all

/-- Where the loops over the queries and the values of a filter stand. -/
structure Pass where
  mapped : List UInt64
  cursor : Cursor

namespace Pass

def loop (filter : GcsFilter) : Question → Pass → Outcome Bool
  | .any, pass => GcsFilterReader.anyLoop filter pass.mapped pass.cursor
  | .all, pass => GcsFilterReader.allLoop filter pass.mapped pass.cursor

/-- One round of the loops that is not the last one. -/
inductive Round (filter : GcsFilter) : Question → Pass → Pass → Prop
  | decoded (below : data < p) (decoded : filter.golombRiceDecode reader = pure (delta, next))
      (fits : data.toNat + delta.toNat < 2 ^ 64) :
      Round filter question ⟨p :: others, ⟨data, remaining + 1, reader⟩⟩
        ⟨p :: others, ⟨UInt64.ofNat (data.toNat + delta.toNat), remaining, next⟩⟩
  | passed (above : p < place.data) : Round filter .any ⟨p :: others, place⟩ ⟨others, place⟩
  | found (same : place.data = p) : Round filter .all ⟨p :: others, place⟩ ⟨others, place⟩

/-- The readers from which the loops decode a number. -/
inductive Decodes (filter : GcsFilter) (question : Question) : Pass → BitStreamReader → Prop
  | here (below : data < p) :
      Decodes filter question ⟨p :: others, ⟨data, remaining + 1, reader⟩⟩ reader
  | later {pass next : Pass} (round : Round filter question pass next)
      (decodes : Decodes filter question next reader) :
      Decodes filter question pass reader

section Loop
variable {filter : GcsFilter} {question : Question} {p data : UInt64} {mapped : List UInt64}
  {cursor : Cursor}

theorem loop_below (below : data < p) (remaining : Nat) (reader : BitStreamReader) :
    loop filter question ⟨p :: mapped, ⟨data, remaining + 1, reader⟩⟩ =
      filter.golombRiceDecode reader >>= fun decoded =>
        checked (data.toNat + decoded.1.toNat) >>= fun sum =>
          loop filter question ⟨p :: mapped, ⟨sum, remaining, decoded.2⟩⟩ := by
  have less : compare data p = .lt := Std.compare_eq_lt.mpr below
  cases question with
  | any => simp only [loop, GcsFilterReader.anyLoop, GcsFilterReader.seek, less, bind_assoc]
  | all => simp only [loop, GcsFilterReader.allLoop, GcsFilterReader.seek, less, bind_assoc]

theorem loop_last (below : data < p) (reader : BitStreamReader) :
    loop filter question ⟨p :: mapped, ⟨data, 0, reader⟩⟩ = pure false := by
  have less : compare data p = .lt := Std.compare_eq_lt.mpr below
  cases question with
  | any => simp only [loop, GcsFilterReader.anyLoop, GcsFilterReader.seek, less, pure_bind]
  | all => simp only [loop, GcsFilterReader.allLoop, GcsFilterReader.seek, less, pure_bind]

theorem seek_reached {found : Ordering} (same : compare cursor.data p = found) (reached : found ≠ .lt) :
    GcsFilterReader.seek filter p cursor.remaining cursor.data cursor.reader = pure
      (found, cursor) := by
  unfold GcsFilterReader.seek
  cases found with
  | lt => exact absurd rfl reached
  | eq => simp only [same]
  | gt => simp only [same]

theorem any_above (above : p < cursor.data) :
    loop filter .any ⟨p :: mapped, cursor⟩ = loop filter .any ⟨mapped, cursor⟩ := by
  have more : compare cursor.data p = .gt := Std.compare_eq_gt.mpr above
  simp only [loop, GcsFilterReader.anyLoop, seek_reached more (by decide), pure_bind]

theorem any_same (same : cursor.data = p) : loop filter .any ⟨p :: mapped, cursor⟩ = pure true := by
  have equal : compare cursor.data p = .eq := Std.compare_eq_iff_eq.mpr same
  simp only [loop, GcsFilterReader.anyLoop, seek_reached equal (by decide), pure_bind]

theorem all_above (above : p < cursor.data) : loop filter .all ⟨p :: mapped, cursor⟩ = pure false := by
  have more : compare cursor.data p = .gt := Std.compare_eq_gt.mpr above
  simp only [loop, GcsFilterReader.allLoop, seek_reached more (by decide), pure_bind]

theorem all_same (same : cursor.data = p) :
    loop filter .all ⟨p :: mapped, cursor⟩ = loop filter .all ⟨mapped, cursor⟩ := by
  have equal : compare cursor.data p = .eq := Std.compare_eq_iff_eq.mpr same
  simp only [loop, GcsFilterReader.allLoop, seek_reached equal (by decide), pure_bind]

end Loop

/-- A round is one of the loops: they go on from where it ends. -/
theorem Round.loop_eq {filter : GcsFilter} {question : Question} {pass next : Pass}
    (round : Round filter question pass next) :
    loop filter question pass = loop filter question next := by
  cases round with
  | decoded below decoded fits =>
    rw [loop_below below, decoded, pure_bind, GcsFilter.checked_of_lt fits, pure_bind]
  | passed above => exact any_above above
  | found same => exact all_same same

/-- Every number is decoded from bits of the input that were not read before. -/
theorem Decodes.within {filter : GcsFilter} (short : filter.p < 64) {question : Question} {pass : Pass}
    {reader : BitStreamReader} (decodes : Decodes filter question pass reader)
    (stands : pass.cursor.reader.Before bits) :
    ∃ read left, bits = read ++ left ∧ reader.Before left := by
  induction decodes generalizing bits with
  | here below => exact ⟨[], bits, rfl, stands⟩
  | later round _ ih =>
    cases round with
    | decoded below decoded fits =>
      obtain ⟨code, rest, rfl, _, follows⟩ := filter.of_golombRiceDecode short stands decoded
      obtain ⟨read, left, rfl, reached⟩ := ih follows
      exact ⟨code ++ read, left, (List.append_assoc _ _ _).symm, reached⟩
    | passed above => exact ih stands
    | found same => exact ih stands

end Pass

/-- Values in ascending order that answer a question already: later ones cannot change it. -/
def Question.Settled (targets before : List Nat) : Question → Prop
  | .any => (∃ p ∈ targets, p ∈ before) ∨ ∀ p ∈ targets, ∃ value ∈ before, p < value
  | .all => (∀ p ∈ targets, p ∈ before) ∨ ∃ p ∈ targets, p ∉ before ∧ ∃ value ∈ before, p < value

namespace Question

/-- A value below all targets says nothing. -/
theorem settled_cons_iff_of_lt {data : Nat} {targets before : List Nat}
    (below : ∀ p ∈ targets, data < p) (question : Question) :
    question.Settled targets (data :: before) ↔ question.Settled targets before := by
  have hit : ∀ p ∈ targets, (p ∈ data :: before ↔ p ∈ before) := by
    intro p member
    rw [List.mem_cons, or_iff_right (below p member).ne']
  have passed : ∀ p ∈ targets,
      ((∃ value ∈ data :: before, p < value) ↔ ∃ value ∈ before, p < value) := by
    intro p member
    simp only [List.mem_cons, exists_eq_or_imp, or_iff_right (below p member).not_gt]
  cases question with
  | any =>
    refine or_congr (exists_congr fun p => and_congr_right fun member => hit p member) ?_
    exact forall₂_congr fun p member => passed p member
  | all =>
    refine or_congr (forall₂_congr fun p member => hit p member) ?_
    exact exists_congr fun p => and_congr_right fun member =>
      and_congr (not_congr (hit p member)) (passed p member)

theorem not_settled_nil {p : Nat} {targets : List Nat} (question : Question) :
    ¬ question.Settled (p :: targets) [] := by
  cases question with
  | any =>
    rintro (⟨_, _, hit⟩ | passed)
    · exact List.not_mem_nil hit
    · obtain ⟨_, member, _⟩ := passed p List.mem_cons_self
      exact List.not_mem_nil member
  | all =>
    rintro (hit | ⟨_, _, _, _, member, _⟩)
    · exact List.not_mem_nil (hit p List.mem_cons_self)
    · exact List.not_mem_nil member

theorem any_settled_of_passed {p : Nat} {targets before : List Nat} (missed : p ∉ before)
    (passed : ∃ value ∈ before, p < value) :
    any.Settled (p :: targets) before ↔ any.Settled targets before := by
  simp only [Settled, List.mem_cons, exists_eq_or_imp, forall_eq_or_imp, or_iff_right missed,
    and_iff_right passed]

theorem all_settled_of_found {p : Nat} {targets before : List Nat} (found : p ∈ before) :
    all.Settled (p :: targets) before ↔ all.Settled targets before := by
  simp only [Settled, List.mem_cons, exists_eq_or_imp, forall_eq_or_imp, found, true_and,
    not_true_eq_false, false_and, false_or]

end Question

/-- The totals of a filter leave the 64 bits only after they have answered the question. -/
def SettledInTime (question : Question) (targets : List Nat) (data : List Nat) (totals : List Nat) :
    Prop :=
  ∀ before total, before ++ [total] <+: totals → 2 ^ 64 ≤ total →
    question.Settled targets (data ++ before)

namespace Pass

/-- Nothing that is left of the loops leaves the 64 bits. -/
def Fits (filter : GcsFilter) (question : Question) (pass : Pass) : Prop :=
  Returns (loop filter question pass) ∧
    ∀ reader, Decodes filter question pass reader → filter.Exact reader

theorem fits_of_last {filter : GcsFilter} {question : Question} {pass : Pass} {answer : Bool}
    (ended : loop filter question pass = pure answer)
    (none : ∀ reader, ¬ Decodes filter question pass reader) : Fits filter question pass := by
  refine ⟨?_, fun reader decodes => absurd decodes (none reader)⟩
  rw [ended]
  exact Option.some_ne_none _

/-- Where a round neither ends the loops nor decodes, the next one decides. -/
theorem fits_iff_of_round {filter : GcsFilter} {question : Question} {pass next : Pass}
    (round : Round filter question pass next)
    (only : ∀ reader, Decodes filter question pass reader → Decodes filter question next reader) :
    Fits filter question pass ↔ Fits filter question next := by
  rw [Fits, Fits, round.loop_eq]
  refine and_congr_right fun _ => forall_congr' fun reader => ?_
  exact imp_congr_left ⟨only reader, .later round⟩

section Rounds
variable {filter : GcsFilter} {question : Question} {p data : UInt64} {mapped : List UInt64}
  {cursor : Cursor}

theorem fits_nil : Fits filter question ⟨[], cursor⟩ := by
  have none : ∀ reader, ¬ Decodes filter question ⟨[], cursor⟩ reader := by
    intro reader decodes
    cases decodes with
    | later round _ => cases round
  cases question with
  | any => exact fits_of_last rfl none
  | all => exact fits_of_last rfl none

theorem fits_any_same (same : cursor.data = p) : Fits filter .any ⟨p :: mapped, cursor⟩ := by
  refine fits_of_last (any_same same) fun reader decodes => ?_
  cases decodes with
  | here below => exact UInt64.lt_irrefl _ (same ▸ below)
  | later round _ => cases round with
    | decoded below _ _ => exact UInt64.lt_irrefl _ (same ▸ below)
    | passed above => exact UInt64.lt_irrefl _ (same ▸ above)

theorem fits_all_above (above : p < cursor.data) : Fits filter .all ⟨p :: mapped, cursor⟩ := by
  refine fits_of_last (all_above above) fun reader decodes => ?_
  cases decodes with
  | here below => exact UInt64.lt_asymm above below
  | later round _ => cases round with
    | decoded below _ _ => exact UInt64.lt_asymm above below
    | found same => exact UInt64.lt_irrefl _ (same ▸ above)

theorem fits_any_above (above : p < cursor.data) :
    Fits filter .any ⟨p :: mapped, cursor⟩ ↔ Fits filter .any ⟨mapped, cursor⟩ := by
  refine fits_iff_of_round (.passed above) fun reader decodes => ?_
  cases decodes with
  | here below => exact absurd below (UInt64.lt_asymm above)
  | later round later => cases round with
    | decoded below _ _ => exact absurd below (UInt64.lt_asymm above)
    | passed _ => exact later

theorem fits_all_same (same : cursor.data = p) :
    Fits filter .all ⟨p :: mapped, cursor⟩ ↔ Fits filter .all ⟨mapped, cursor⟩ := by
  refine fits_iff_of_round (.found same) fun reader decodes => ?_
  cases decodes with
  | here below => exact absurd (same ▸ below) (UInt64.lt_irrefl _)
  | later round later => cases round with
    | decoded below _ _ => exact absurd (same ▸ below) (UInt64.lt_irrefl _)
    | found _ => exact later

theorem fits_last (below : data < p) (reader : BitStreamReader) :
    Fits filter question ⟨p :: mapped, ⟨data, 0, reader⟩⟩ := by
  refine fits_of_last (loop_last below reader) fun reader decodes => ?_
  cases decodes with
  | later round _ => cases round with
    | passed above => exact UInt64.lt_asymm below above
    | found same => exact UInt64.lt_irrefl _ (same ▸ below)

/-- A round that decodes. -/
theorem fits_below (below : data < p) (remaining : Nat) (reader : BitStreamReader) :
    Fits filter question ⟨p :: mapped, ⟨data, remaining + 1, reader⟩⟩ ↔
      Returns (filter.golombRiceDecode reader) ∧ filter.Exact reader ∧
        ∀ delta next, filter.golombRiceDecode reader = pure (delta, next) →
          data.toNat + delta.toNat < 2 ^ 64 ∧ Fits filter question
            ⟨p :: mapped, ⟨UInt64.ofNat (data.toNat + delta.toNat), remaining, next⟩⟩ := by
  constructor
  · rintro ⟨returns, exact⟩
    rw [loop_below below, returns_bind] at returns
    refine ⟨returns.1, exact reader (.here below), fun delta next decoded => ?_⟩
    have later := returns.2 _ decoded
    have fits : data.toNat + delta.toNat < 2 ^ 64 := by
      by_contra large
      refine (returns_bind.mp later).1 ?_
      rw [checked, if_neg large]
      rfl
    have round : Round filter question ⟨p :: mapped, ⟨data, remaining + 1, reader⟩⟩ _ :=
      .decoded below decoded fits
    rw [GcsFilter.checked_of_lt fits, pure_bind] at later
    exact ⟨fits, later, fun reader decodes => exact reader (.later round decodes)⟩
  · rintro ⟨returns, exact, next⟩
    constructor
    · rw [loop_below below, returns_bind]
      refine ⟨returns, fun read decoded => ?_⟩
      obtain ⟨fits, later, _⟩ := next read.1 read.2 decoded
      rw [GcsFilter.checked_of_lt fits, pure_bind]
      exact later
    · intro other decodes
      cases decodes with
      | here _ => exact exact
      | later round decodes => cases round with
        | decoded _ decoded _ => exact (next _ _ decoded).2.2 other decodes
        | passed above => exact absurd above (UInt64.lt_asymm below)
        | found same => exact absurd (same ▸ below) (UInt64.lt_irrefl _)

end Rounds

/-- Where the values seen so far are below all queries, the next code decides. -/
theorem settledInTime_totals {question : Question} {p width remaining base : Nat} {bits : List Bool}
    {targets : List Nat} (seen : List Nat) (below : ∀ before, question.Settled (p :: targets)
      (seen ++ before) ↔
      question.Settled (p :: targets) before) :
    SettledInTime question (p :: targets) seen (totals width (remaining + 1) base bits) ↔
      FitsWord base (fun total rest =>
        SettledInTime question (p :: targets) [total] (totals width remaining total rest))
        (riceDecode width bits) := by
  have early : ∀ {total rest}, SettledInTime question (p :: targets) seen (total :: rest) →
      total < 2 ^ 64 := by
    intro total rest settled
    by_contra large
    have first := settled [] total ⟨rest, rfl⟩ (not_lt.mp large)
    exact question.not_settled_nil ((below []).mp first)
  rw [totals]
  cases riceDecode width bits with
  | error ones =>
    refine ⟨early, fun fits before total reached large => ?_⟩
    have member := reached.subset (List.mem_append_right before (List.mem_singleton_self total))
    exact absurd fits (not_lt.mpr (List.mem_singleton.mp member ▸ large))
  | ok read =>
    constructor
    · intro settled
      refine ⟨early settled, fun before total reached large => ?_⟩
      have later := settled (_ :: before) total (List.cons_prefix_cons.mpr ⟨rfl, reached⟩) large
      exact (below _).mp later
    · rintro ⟨fits, settled⟩ before total reached large
      cases before with
      | nil =>
        obtain ⟨rfl, _⟩ := List.cons_prefix_cons.mp reached
        exact absurd fits (not_lt.mpr large)
      | cons first before =>
        obtain ⟨rfl, later⟩ := List.cons_prefix_cons.mp reached
        exact (below _).mpr (settled before total later large)

/-- Where the values are still below all queries. -/
theorem fits_iff_of_below {filter : GcsFilter} (short : filter.p < 64) (question : Question)
    {p : UInt64} {mapped : List UInt64} (sorted : (p :: mapped).Pairwise (· ≤ ·)) {remaining : Nat}
    {data : UInt64} {reader : BitStreamReader} (below : data < p) (stands : reader.Before bits)
    (next : ∀ {data reader bits}, reader.Before bits →
      (Fits filter question ⟨p :: mapped, ⟨data, remaining, reader⟩⟩ ↔
        SettledInTime question ((p :: mapped).map UInt64.toNat) [data.toNat]
          (totals filter.p.toNat remaining data.toNat bits))) :
    Fits filter question ⟨p :: mapped, ⟨data, remaining + 1, reader⟩⟩ ↔
      SettledInTime question ((p :: mapped).map UInt64.toNat) [data.toNat]
        (totals filter.p.toNat (remaining + 1) data.toNat bits) := by
  have all : ∀ q ∈ (p :: mapped).map UInt64.toNat, data.toNat < q := by
    intro q member
    obtain ⟨value, inside, rfl⟩ := List.mem_map.mp member
    have least := UInt64.lt_iff_toNat_lt.mp below
    rcases List.mem_cons.mp inside with rfl | later
    · exact least
    · exact least.trans_le (UInt64.le_iff_toNat_le.mp ((List.pairwise_cons.mp sorted).1 value later))
  have decoding := GcsFilter.decode_iff short stands data.toNat
    (fun sum reader => Fits filter question ⟨p :: mapped, ⟨sum, remaining, reader⟩⟩)
    (fun total rest => SettledInTime question ((p :: mapped).map UInt64.toNat) [total]
      (totals filter.p.toNat remaining total rest)) next
  refine (fits_below below remaining reader).trans (decoding.trans ?_)
  exact (settledInTime_totals [data.toNat] fun before => question.settled_cons_iff_of_lt all).symm

/-- Where a value has reached the first query, the others are left or the answer is known. -/
theorem fits_iff_of_reached {filter : GcsFilter} (question : Question) {p : UInt64}
    {mapped : List UInt64} {remaining width : Nat} {data : UInt64} {reader : BitStreamReader}
    {bits : List Bool} (reached : p ≤ data)
    (rest : Fits filter question ⟨mapped, ⟨data, remaining, reader⟩⟩ ↔
      SettledInTime question (mapped.map UInt64.toNat) [data.toNat]
        (totals width remaining data.toNat bits)) :
    Fits filter question ⟨p :: mapped, ⟨data, remaining, reader⟩⟩ ↔
      SettledInTime question ((p :: mapped).map UInt64.toNat) [data.toNat]
        (totals width remaining data.toNat bits) := by
  rw [List.map_cons]
  by_cases same : data = p
  · subst same
    cases question with
    | any =>
      refine iff_of_true (fits_any_same rfl) fun before total _ _ => ?_
      exact .inl ⟨data.toNat, List.mem_cons_self, List.mem_cons_self⟩
    | all =>
      refine (fits_all_same rfl).trans (rest.trans ?_)
      refine forall₂_congr fun before total => imp_congr_right fun _ => imp_congr_right fun _ => ?_
      exact (Question.all_settled_of_found List.mem_cons_self).symm
  · have above : p < data := UInt64.lt_of_le_of_ne reached (Ne.symm same)
    have more := UInt64.lt_iff_toNat_lt.mp above
    have missed : ∀ {before total}, before ++ [total] <+: totals width remaining data.toNat bits →
        p.toNat ∉ data.toNat :: before := by
      intro before total prefixed member
      rcases List.mem_cons.mp member with equal | later
      · exact more.ne equal
      · exact absurd more (not_lt.mpr (le_of_prefix_totals prefixed _ later))
    have passed : ∀ before : List Nat, ∃ value ∈ data.toNat :: before, p.toNat < value :=
      fun before => ⟨data.toNat, List.mem_cons_self, more⟩
    cases question with
    | any =>
      refine (fits_any_above above).trans (rest.trans ?_)
      refine forall₂_congr fun before total => forall_congr' fun prefixed => imp_congr_right fun _ => ?_
      exact (Question.any_settled_of_passed (missed prefixed) (passed before)).symm
    | all =>
      refine iff_of_true (fits_all_above above) fun before total prefixed _ => ?_
      exact .inr ⟨p.toNat, List.mem_cons_self, missed prefixed, passed before⟩

theorem fits_iff {filter : GcsFilter} (short : filter.p < 64) (question : Question)
    {mapped : List UInt64} (sorted : mapped.Pairwise (· ≤ ·)) {remaining : Nat} {data : UInt64}
    {reader : BitStreamReader} (stands : reader.Before bits) :
    Fits filter question ⟨mapped, ⟨data, remaining, reader⟩⟩ ↔
      SettledInTime question (mapped.map UInt64.toNat) [data.toNat]
        (totals filter.p.toNat remaining data.toNat bits) := by
  -- the queries are used up one after the other, and before each of them some values
  induction mapped generalizing remaining data reader bits with
  | nil =>
    refine iff_of_true fits_nil fun before total _ _ => ?_
    cases question with
    | any => exact .inr fun _ member => absurd member List.not_mem_nil
    | all => exact .inl fun _ member => absurd member List.not_mem_nil
  | cons p mapped queries =>
    have others := (List.pairwise_cons.mp sorted).2
    induction remaining generalizing data reader bits with
    | zero =>
      rcases UInt64.lt_or_le data p with below | reached
      · refine iff_of_true (fits_last below reader) fun before total prefixed _ => ?_
        rw [totals, List.prefix_nil] at prefixed
        exact absurd prefixed (by simp)
      · exact fits_iff_of_reached question reached (queries others stands)
    | succ remaining values =>
      rcases UInt64.lt_or_le data p with below | reached
      · exact fits_iff_of_below short question sorted below stands values
      · exact fits_iff_of_reached question reached (queries others stands)

end Pass

namespace GcsFilterReader

def matching (self : GcsFilterReader) : Question → Bytes → List Bytes → Outcome Bool
  | .any => self.matchAny
  | .all => self.matchAll

/-- The queries as the loops go through them. -/
def mappedQuery (self : GcsFilterReader) (count : UInt64) (query : List Bytes) : Question → List UInt64
  | .any => (query.map (self.filter.mapped self.m count.toNat)).insertionSort (· ≤ ·)
  | .all => dedup ((query.map (self.filter.mapped self.m count.toNat)).insertionSort (· ≤ ·))

/-- The readers from which a number is decoded to answer a question. -/
def Decodes (self : GcsFilterReader) (question : Question) (content : Bytes) (query : List Bytes)
    (reader : BitStreamReader) : Prop :=
  let (count, body) := nElements content
  let mapped := self.mappedQuery count query question
  count.toNat * self.m.toNat < 2 ^ 64 ∧ mapped ≠ [] ∧ count ≠ 0 ∧
    (reader = .new body ∨ ∃ cursor, start self.filter count body = pure cursor ∧
      Pass.Decodes self.filter question ⟨mapped, cursor⟩ reader)

section Matching
variable (self : GcsFilterReader) (question : Question) (content : Bytes) (query : List Bytes)

theorem matching_eq : self.matching question content query =
    checked ((nElements content).1.toNat * self.m.toNat) >>= fun _ =>
      if (self.mappedQuery (nElements content).1 query question).isEmpty then
        Pass.loop self.filter question ⟨[], ⟨0, 0, .new []⟩⟩
      else if (nElements content).1 = 0 then pure false
      else start self.filter (nElements content).1 (nElements content).2 >>= fun cursor =>
        Pass.loop self.filter question ⟨self.mappedQuery (nElements content).1 query question,
          cursor⟩ := by
  have same : ∀ nm, nm = UInt64.ofNat ((nElements content).1.toNat * self.m.toNat) →
      (fun e => mapToRange (self.filter.hash e) nm) =
        self.filter.mapped self.m (nElements content).1.toNat := by
    rintro _ rfl
    rfl
  have checking : ∀ f : UInt64 → Outcome Bool,
      checked ((nElements content).1.toNat * self.m.toNat) >>= f =
        checked ((nElements content).1.toNat * self.m.toNat) >>= fun _ =>
          f (UInt64.ofNat ((nElements content).1.toNat * self.m.toNat)) := by
    intro f
    rw [checked]
    split_ifs
    · rw [pure_bind, pure_bind]
    · rfl
  cases question with
  | any =>
    simp only [matching, matchAny, mappedQuery, Pass.loop, anyLoop]
    refine (checking _).trans ?_
    simp only [same _ rfl]
    rfl
  | all =>
    simp only [matching, matchAll, mappedQuery, Pass.loop, allLoop]
    refine (checking _).trans ?_
    simp only [same _ rfl]
    rfl

/-- Where the number of elements times `m` fits its 64 bits, the codes that follow decide. -/
theorem fits_matching_iff (short : self.filter.p < 64)
    (fits : (nElements content).1.toNat * self.m.toNat < 2 ^ 64) :
    Returns (self.matching question content query) ∧
        (∀ reader, self.Decodes question content query reader → self.filter.Exact reader) ↔
      SettledInTime question
        ((self.mappedQuery (nElements content).1 query question).map UInt64.toNat) []
        (totals self.filter.p.toNat (nElements content).1.toNat 0
          (bitsOfBytes (nElements content).2)) := by
  have sorted : (self.mappedQuery (nElements content).1 query question).Pairwise (· ≤ ·) := by
    cases question with
    | any => exact pairwise_sort _
    | all => exact (pairwise_sort _).sublist (dedup_sublist _)
  rw [matching_eq, GcsFilter.checked_of_lt fits, pure_bind]
  unfold Decodes
  obtain ⟨⟨count, body⟩, read⟩ : ∃ decoded, decoded = nElements content := ⟨_, rfl⟩
  simp only [← read] at fits sorted ⊢
  obtain ⟨mapped, same⟩ : ∃ mapped, mapped = self.mappedQuery count query question := ⟨_, rfl⟩
  rw [← same] at sorted ⊢
  cases mapped with
  | nil =>
    refine iff_of_true ⟨Pass.fits_nil.1, fun reader decodes => absurd rfl decodes.2.1⟩ ?_
    intro before total _ _
    cases question with
    | any => exact .inr fun _ member => absurd member List.not_mem_nil
    | all => exact .inl fun _ member => absurd member List.not_mem_nil
  | cons p mapped =>
    rw [List.isEmpty_cons, if_neg Bool.false_ne_true]
    by_cases none : count = 0
    · subst none
      rw [if_pos rfl]
      refine iff_of_true ⟨Option.some_ne_none _, fun reader decodes => absurd rfl decodes.2.2.1⟩ ?_
      intro before total reached _
      rw [UInt64.toNat_zero, totals, List.prefix_nil] at reached
      exact absurd reached (by simp)
    · rw [if_neg none]
      obtain ⟨remaining, counted⟩ : ∃ remaining, count.toNat = remaining + 1 := by
        refine Nat.exists_eq_add_one_of_ne_zero fun zero => none (UInt64.toNat.inj ?_)
        rw [zero, UInt64.toNat_zero]
      have less : (count - 1).toNat = remaining := by
        have one : (1 : UInt64) ≤ count := by
          rw [UInt64.le_iff_toNat_le, counted]
          exact Nat.le_add_left 1 remaining
        rw [UInt64.toNat_sub_of_le _ _ one, counted]
        rfl
      have decoding := GcsFilter.decode_iff short (BitStreamReader.before_new body) 0
        (fun sum reader => Pass.Fits self.filter question ⟨p :: mapped, ⟨sum, remaining, reader⟩⟩)
        (fun total rest => SettledInTime question ((p :: mapped).map UInt64.toNat) [total]
          (totals self.filter.p.toNat remaining total rest))
        fun stands => Pass.fits_iff short question sorted stands
      rw [counted]
      refine Iff.trans ?_ (decoding.trans (Pass.settledInTime_totals [] fun before => Iff.rfl).symm)
      simp only [start, bind_assoc, pure_bind, less, returns_bind, Nat.zero_add, UInt64.ofNat_toNat]
      have some : p :: mapped ≠ [] := List.cons_ne_nil p mapped
      constructor
      · rintro ⟨⟨returns, loops⟩, exact⟩
        refine ⟨returns, exact _ ⟨counted ▸ fits, some, none, .inl rfl⟩, fun delta next decoded => ?_⟩
        refine ⟨delta.toNat_lt, loops (delta, next) decoded, fun reader decodes => ?_⟩
        refine exact reader ⟨counted ▸ fits, some, none, .inr ⟨_, ?_, decodes⟩⟩
        rw [decoded, pure_bind]
      · rintro ⟨returns, exact, each⟩
        refine ⟨⟨returns, fun read decoded => (each read.1 read.2 decoded).2.1⟩, ?_⟩
        rintro reader ⟨_, _, _, rfl | ⟨cursor, started, decodes⟩⟩
        · exact exact
        · obtain ⟨⟨delta, next⟩, decoded, same⟩ := run_bind_eq_ok.mp (congrArg ExceptT.run started)
          obtain rfl := run_pure_eq_ok.mp same
          exact (each delta next decoded).2.2 reader decodes

theorem Decodes.within {self : GcsFilterReader} (short : self.filter.p < 64) {question : Question}
    {content : Bytes} {query : List Bytes} {reader : BitStreamReader}
    (decodes : self.Decodes question content query reader) :
    ∃ read left, bitsOfBytes (nElements content).2 = read ++ left ∧ reader.Before left := by
  have stands := BitStreamReader.before_new (nElements content).2
  obtain ⟨_, _, _, rfl | ⟨cursor, started, decodes⟩⟩ := decodes
  · exact ⟨[], _, rfl, stands⟩
  · obtain ⟨⟨data, next⟩, decoded, same⟩ := run_bind_eq_ok.mp (congrArg ExceptT.run started)
    obtain rfl := run_pure_eq_ok.mp same
    obtain ⟨code, rest, split, _, follows⟩ := self.filter.of_golombRiceDecode short stands decoded
    obtain ⟨read, left, rfl, reached⟩ := decodes.within short follows
    exact ⟨code ++ read, left, by rw [split, List.append_assoc], reached⟩

theorem mem_mappedQuery {value : UInt64} {count : UInt64} :
    value ∈ self.mappedQuery count query question ↔
      value ∈ query.map (self.filter.mapped self.m count.toNat) := by
  cases question with
  | any => rw [mappedQuery, List.mem_insertionSort]
  | all => rw [mappedQuery, mem_dedup, List.mem_insertionSort]

/-- What follows the number of elements is the end of the input. -/
theorem nElements_suffix : (nElements content).2 <:+ content := by
  rw [nElements]
  cases read : VarInt.consensusDecode content with
  | error _ => exact List.suffix_refl content
  | ok decoded =>
    obtain ⟨_, same⟩ := (VarInt.reads content decoded.1 decoded.2).mp read
    exact ⟨_, same.symm⟩

end Matching

end GcsFilterReader

theorem Question.settled_congr {targets others : List Nat} (same : ∀ p, p ∈ targets ↔ p ∈ others)
    (question : Question) (before : List Nat) :
    question.Settled targets before ↔ question.Settled others before := by
  cases question with
  | any => simp only [Settled, same]
  | all => simp only [Settled, same]

/-- `BlockFilterReader::new`. -/
def blockFilterReader (blockHash : ByteArr 32) : GcsFilterReader :=
  let k0 := UInt64.ofNat (fromLittleEndian (blockHash.val.take 8))
  let k1 := UInt64.ofNat (fromLittleEndian ((blockHash.val.drop 8).take 8))
  .new k0 k1 M P

structure BlockFilter where
  content : Bytes

namespace BlockFilter

def matchAny (self : BlockFilter) (blockHash : ByteArr 32) (query : List Bytes) : Outcome Bool :=
  (blockFilterReader blockHash).matchAny self.content query

def matchAll (self : BlockFilter) (blockHash : ByteArr 32) (query : List Bytes) : Outcome Bool :=
  (blockFilterReader blockHash).matchAll self.content query

def matching (self : BlockFilter) (blockHash : ByteArr 32) (query : List Bytes) :
    Question → Outcome Bool
  | .any => self.matchAny blockHash query
  | .all => self.matchAll blockHash query

/-- The number of elements that a filter says it has, and the bits of their codes. -/
def count (self : BlockFilter) : Nat := (GcsFilterReader.nElements self.content).1.toNat

def codes (self : BlockFilter) : List Bool := bitsOfBytes (GcsFilterReader.nElements self.content).2

/-- What a query is compared with. -/
def targets (self : BlockFilter) (blockHash : ByteArr 32) (query : List Bytes) : List Nat :=
  query.map fun e => ((blockFilterReader blockHash).filter.mapped M self.count e).toNat

/-- A question is answered, or the input is found to be too short. No number on the way
leaves its 64 bits, and a code that is read is made of bits of the input that come after
those read before it. -/
structure Safe (filter : BlockFilter) (blockHash : ByteArr 32) (query : List Bytes)
    (question : Question) : Prop where
  returns : ∃ result : Except IoError Bool, (filter.matching blockHash query question).run = some result
  exact : ∀ reader, (blockFilterReader blockHash).Decodes question filter.content query reader →
    (blockFilterReader blockHash).filter.Exact reader
  within : ∀ reader, (blockFilterReader blockHash).Decodes question filter.content query reader →
    ∃ read left, filter.codes = read ++ left ∧ reader.Before left ∧
      ∀ n next, (blockFilterReader blockHash).filter.golombRiceDecode reader = pure (n, next) →
        ∃ code rest, left = code ++ rest ∧ code ≠ [] ∧ next.Before rest

end BlockFilter

/-- Matching is safe exactly where the number of elements is not too large to be multiplied.
A filter of 4 TiB and more can also hold codes that are too large, before a query is
answered. -/
theorem match_safe_iff (filter : BlockFilter) (blockHash : ByteArr 32) (query : List Bytes)
    (question : Question) : filter.Safe blockHash query question ↔
      filter.count * M.toNat < 2 ^ 64 ∧ (filter.content.length < 2 ^ 42 ∨
        SettledInTime question (filter.targets blockHash query) []
          (totals P.toNat filter.count 0 filter.codes)) := by
  have short : (blockFilterReader blockHash).filter.p < 64 := (by decide : P < 64)
  have settled : filter.content.length < 2 ^ 42 → SettledInTime question
      (filter.targets blockHash query) [] (totals P.toNat filter.count 0 filter.codes) := by
    intro small before total reached large
    have most := totals_le total (reached.subset (List.mem_append_right before List.mem_cons_self))
    have length := GcsFilterReader.nElements_suffix filter.content |>.length_le
    rw [BlockFilter.codes, length_bitsOfBytes, show P.toNat = 19 from rfl] at most
    omega
  have same : ∀ p, p ∈ filter.targets blockHash query ↔
      p ∈ ((blockFilterReader blockHash).mappedQuery (GcsFilterReader.nElements filter.content).1 query
        question).map UInt64.toNat := by
    intro p
    simp only [List.mem_map, GcsFilterReader.mem_mappedQuery, BlockFilter.targets,
      exists_exists_and_eq_and]
    exact Iff.rfl
  constructor
  · intro safe
    have returns : Returns ((blockFilterReader blockHash).matching question filter.content query) := by
      cases question with
      | any => exact Option.ne_none_iff_exists'.mpr safe.returns
      | all => exact Option.ne_none_iff_exists'.mpr safe.returns
    have fits : filter.count * M.toNat < 2 ^ 64 := by
      by_contra large
      rw [GcsFilterReader.matching_eq, returns_bind] at returns
      refine returns.1 ?_
      rw [checked]
      exact congrArg ExceptT.run (if_neg large)
    refine ⟨fits, .inr fun before total reached large => ?_⟩
    rw [question.settled_congr same]
    exact (GcsFilterReader.fits_matching_iff _ _ _ _ short fits).mp ⟨returns, safe.exact⟩ before total
      reached large
  · rintro ⟨fits, condition⟩
    have intime := condition.elim settled id
    obtain ⟨returns, exact⟩ := (GcsFilterReader.fits_matching_iff _ question _ query short fits).mpr
      fun before total reached large => (question.settled_congr same _).mp
        (intime before total reached large)
    refine ⟨?_, exact, fun reader decodes => ?_⟩
    · cases question with
      | any => exact Option.ne_none_iff_exists'.mp returns
      | all => exact Option.ne_none_iff_exists'.mp returns
    · obtain ⟨read, left, split, stands⟩ := decodes.within short
      refine ⟨read, left, split, stands, fun n next decoded => ?_⟩
      obtain ⟨code, rest, parts, some, follows⟩ :=
        GcsFilter.of_golombRiceDecode short stands decoded
      exact ⟨code, rest, parts, List.ne_nil_of_length_pos (Nat.zero_lt_of_lt some), follows⟩

/-- A filter of nine bytes that says it has `2 ^ 64 - 1` elements. -/
theorem hostile_count_panics : ¬ ∀ (filter : BlockFilter) (blockHash : ByteArr 32)
    (query : List Bytes) (question : Question), filter.Safe blockHash query question := by
  intro safe
  obtain ⟨result, returned⟩ := (safe ⟨List.replicate 9 0xff⟩ ⟨List.replicate 32 0, rfl⟩ [] .any).returns
  have panics : (GcsFilterReader.matchAny (blockFilterReader ⟨List.replicate 32 0, rfl⟩)
      (List.replicate 9 0xff) []).run = none := by decide
  exact absurd (returned.symm.trans panics) (Option.some_ne_none result)

end Litecoin.Bip158
