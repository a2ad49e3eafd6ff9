import ManagedHeap.Statistics.Histogram
import Mathlib.Algebra.Order.BigOperators.Group.List
import Mathlib.Algebra.Order.Ring.Nat
import Mathlib.Data.Nat.Log

/-!
# What a histogram says about its values

**Input.**  Calls that record a 64-bit value or clear a histogram.

**Algorithm.**  A histogram is compared with the list of the values recorded since the last clear.
Bit lengths grow with the values, so the bucket at which the running total reaches a rank is the
bucket of the value of that rank.

**Results.**  `Histogram.ranksTruly_after`: what is given for a rank is the value of that rank up to
the end of its bucket.  `Histogram.summarizes_after`: the count, the extremes and the mean, and when
the mean lies between the extremes.
-/

namespace ManagedHeap

namespace Histogram

variable {t v : Nat} {vs : List Nat}

open Numeral (wordLimit)

/-- A call that changes a histogram. -/
inductive Use where
  | record (v : UInt64)
  | clear

def use (h : Histogram) : Use → Histogram
  | .record v => h.record v.toNat
  | .clear => .empty

def after (uses : List Use) : Histogram := uses.foldl use .empty

/-- The values since the last clear, with one more call. -/
def Use.extend (vs : List Nat) : Use → List Nat
  | .record v => vs ++ [v.toNat]
  | .clear => []

/-- The values recorded since the last clear, oldest first. -/
def recorded (uses : List Use) : List Nat := uses.foldl Use.extend []

section Buckets

theorem bucketOf_le_of_le (h : v ≤ v') : bucketOf v ≤ bucketOf v' := by
  unfold bucketOf
  split
  · exact Nat.zero_le _
  · next hv =>
    rw [if_neg (by omega), Nat.log2_eq_log_two, Nat.log2_eq_log_two]
    exact Nat.succ_le_succ (Nat.log_mono_right h)

theorem bucketOf_lt (h : v < wordLimit) : bucketOf v < bucketCount := by
  unfold bucketOf bucketCount
  split
  · omega
  · next hv => exact Nat.succ_lt_succ ((Nat.log2_lt hv).mpr h)

theorem le_upperBound (v : Nat) : v ≤ upperBound (bucketOf v) := by
  unfold upperBound bucketOf
  split
  · omega
  · exact Nat.le_sub_one_of_lt Nat.lt_log2_self

theorem upperBound_le (h : 1 ≤ v) : upperBound (bucketOf v) ≤ 2 * v - 1 := by
  have hle : Nat.pow 2 v.log2 ≤ v := Nat.log2_self_le (by omega)
  unfold upperBound bucketOf
  rw [if_neg (by omega)]
  have hpow : Nat.pow 2 (v.log2 + 1) = Nat.pow 2 v.log2 * 2 := Nat.pow_succ ..
  omega

theorem upperBound_mono (h : b ≤ b') : upperBound b ≤ upperBound b' :=
  Nat.sub_le_sub_right (Nat.pow_le_pow_right (by omega) h) 1

/-- The greatest value of a bucket in 64-bit words, where the top bucket is a case of its own. -/
def upperWord (b : Nat) : UInt64 :=
  if b = 0 then 0 else if b = 64 then UInt64.ofNat (wordLimit - 1) else (1 <<< b.toUInt64) - 1

/-- Shifting one up to a bucket below the top and stepping back stays within the words. -/
theorem toNat_upperWord (h : b < bucketCount) : (upperWord b).toNat = upperBound b := by
  have hcases : ∀ b < 65, (upperWord b).toNat = upperBound b := by decide
  exact hcases b h

end Buckets

section Scan

def below (vs : List Nat) (b : Nat) : Nat := vs.countP (bucketOf · < b)

theorem below_succ (vs : List Nat) (b : Nat) :
    below vs (b + 1) = below vs b + vs.countP (bucketOf · = b) := by
  unfold below
  induction vs with
  | nil => rfl
  | cons v vs ih =>
    simp only [List.countP_cons, ih, decide_eq_true_eq]
    split <;> split <;> split <;> omega

/-- The numbers of values in `n` buckets from `b` on. -/
def counts (vs : List Nat) (b n : Nat) : List Nat :=
  (List.range' b n).map fun i => vs.countP (bucketOf · = i)

theorem bucketAt_counts (vs : List Nat) (rank n b : Nat) (hb : below vs b < rank) :
    (∃ c, bucketAt rank b (below vs b) (counts vs b n) = some c ∧ c < b + n ∧ below vs c < rank ∧
      rank ≤ below vs (c + 1)) ∨ bucketAt rank b (below vs b) (counts vs b n) = none ∧
    below vs (b + n) < rank := by
  induction n generalizing b with
  | zero => exact .inr ⟨rfl, hb⟩
  | succ n ih =>
    rw [counts, List.range'_succ, List.map_cons, bucketAt, ← below_succ]
    split
    · next hle => exact .inl ⟨b, rfl, by omega, hb, hle⟩
    · next hlt =>
      rw [show b + (n + 1) = b + 1 + n by omega]
      exact ih (b + 1) (by omega)

theorem sum_take_counts (vs : List Nat) (n b k : Nat) :
    below vs b + ((counts vs b n).take k).foldr (· + ·) 0 = below vs (b + min k n) := by
  induction n generalizing b k with
  | zero => simp [counts]
  | succ n ih =>
    cases k with
    | zero => simp
    | succ k =>
      have := ih (b + 1) k
      rw [below_succ] at this
      rw [counts, List.range'_succ, List.map_cons, List.take_succ_cons, List.foldr_cons,
        ← Nat.add_assoc]
      rw [show b + min (k + 1) (n + 1) = b + 1 + min k n by omega]
      exact this

/-- In a sorted list the value at a place has as many values up to it, and no more below it. -/
theorem countP_of_sorted {s : List Nat} (hs : s.Pairwise (· ≤ ·)) {i : Nat} (hv : s[i]? = some v) :
    s.countP (· < v) ≤ i ∧ i < s.countP (· ≤ v) := by
  induction s generalizing i with
  | nil => cases hv
  | cons x s ih =>
    obtain ⟨hx, hs⟩ := List.pairwise_cons.mp hs
    rw [List.countP_cons, List.countP_cons]
    cases i with
    | zero =>
      obtain rfl : x = v := by simpa using hv
      have hnone : s.countP (· < x) = 0 :=
        List.countP_eq_zero.mpr fun y hy => by simpa using hx y hy
      simp [hnone]
    | succ i =>
      obtain ⟨hlt, hle⟩ := ih hs hv
      have hxv : x ≤ v := hx v (List.mem_of_getElem? hv)
      simp only [decide_eq_true_eq, hxv, if_true]
      split <;> omega

theorem sorted_mergeSort (vs : List Nat) : (vs.mergeSort (· ≤ ·)).Pairwise (· ≤ ·) := by
  have hle : ∀ a b : Nat, (decide (a ≤ b) || decide (b ≤ a)) = true := by simpa using Nat.le_total
  simpa using List.pairwise_mergeSort (by simpa using fun _ _ _ => Nat.le_trans) hle vs

/-- **The scan finds the bucket of the value of its rank.** -/
theorem bucketAt_of_rank (ht : 1 ≤ t) (hbound : ∀ v ∈ vs, v < wordLimit)
    (hv : (vs.mergeSort (· ≤ ·))[t - 1]? = some v) :
    bucketAt t 0 0 (counts vs 0 bucketCount) = some (bucketOf v) := by
  obtain ⟨hless, hupTo⟩ := countP_of_sorted (sorted_mergeSort vs) hv
  rw [(List.mergeSort_perm vs _).countP_eq] at hless hupTo
  have hupper : ∀ b, bucketOf v < b → t ≤ below vs b := by
    intro b hb
    have : vs.countP (· ≤ v) ≤ below vs b := List.countP_mono_left fun x _ hx => by
      have := bucketOf_le_of_le (show x ≤ v by simpa using hx)
      simpa using Nat.lt_of_le_of_lt this hb
    omega
  have hlower : ∀ b ≤ bucketOf v, below vs b < t := by
    intro b hb
    have : below vs b ≤ vs.countP (· < v) := List.countP_mono_left fun x _ hx => by
      have hx : bucketOf x < b := by simpa using hx
      by_contra hge
      have := bucketOf_le_of_le (show v ≤ x by simpa using hge)
      omega
    omega
  have hmem : v ∈ vs := (List.mergeSort_perm vs _).mem_iff.mp (List.mem_of_getElem? hv)
  have hzero : below vs 0 = 0 := by simp [below]
  have hscan := bucketAt_counts vs t bucketCount 0 (by omega)
  rw [hzero] at hscan
  obtain ⟨c, hc, -, hc1, hc2⟩ | ⟨-, hnone⟩ := hscan
  · rw [hc]
    have h1 : c ≤ bucketOf v := by
      by_contra hgt
      have := hupper c (by omega)
      omega
    have h2 : bucketOf v ≤ c := by
      by_contra hlt
      have := hlower (c + 1) (by omega)
      omega
    rw [Nat.le_antisymm h1 h2]
  · have := hupper (0 + bucketCount) (by rw [Nat.zero_add]; exact bucketOf_lt (hbound v hmem))
    omega

end Scan

section Contents

variable {h : Histogram}

/-- A histogram holds exactly these values. -/
structure Holds (h : Histogram) (vs : List Nat) : Prop where
  bounded : ∀ v ∈ vs, v < wordLimit
  buckets : h.buckets = counts vs 0 bucketCount
  count : h.count = vs.length % wordLimit
  sum : h.sum = vs.sum % wordLimit
  least : h.least = vs.foldl min (wordLimit - 1)
  greatest : h.greatest = vs.foldl max 0

theorem holds_empty : Holds .empty [] where
  bounded := by simp
  buckets := by decide
  count := rfl
  sum := rfl
  least := rfl
  greatest := rfl

variable (hh : Holds h vs)

include hh

/-- One more value is in its bucket, in the count, in the sum and among the extremes. -/
theorem Holds.record (v : UInt64) : Holds (h.record v.toNat) (vs ++ [v.toNat]) where
  bounded := by
    simp only [List.mem_append, List.mem_singleton]
    rintro x (hx | rfl)
    · exact hh.bounded x hx
    · exact v.toNat_lt
  buckets := by
    show h.buckets.modify _ _ = _
    rw [hh.buckets, counts, counts]
    refine List.ext_getElem? fun i => ?_
    rw [List.getElem?_modify, List.getElem?_map, List.getElem?_map]
    by_cases hi : i < bucketCount
    · rw [List.getElem?_range' hi]
      simp [List.countP_append, List.countP_cons]
      split <;> rfl
    · rw [List.getElem?_eq_none (by simpa using hi)]
      rfl
  count := by
    show (h.count + 1) % _ = _
    rw [hh.count, List.length_append, List.length_singleton, Nat.mod_add_mod]
  sum := by
    show (h.sum + _) % _ = _
    rw [hh.sum, List.sum_append, List.sum_singleton, Nat.mod_add_mod]
  least := by rw [List.foldl_concat, ← hh.least]; rfl
  greatest := by rw [List.foldl_concat, ← hh.greatest]; rfl

theorem Holds.use (u : Use) : Holds (h.use u) (u.extend vs) := by
  cases u with
  | record v => exact hh.record v
  | clear => exact holds_empty

omit hh in
/-- **After any calls a histogram holds what was recorded since the last clear.** -/
theorem holds_after (uses : List Use) : Holds (after uses) (recorded uses) := by
  suffices h : ∀ (h : Histogram) vs, Holds h vs →
      Holds (uses.foldl Histogram.use h) (uses.foldl Use.extend vs) from h _ _ holds_empty
  induction uses with
  | nil => exact fun _ _ h => h
  | cons u uses ih => exact fun h vs hh => ih _ _ (hh.use u)

theorem Holds.eq_of_perm (hh' : Holds h' vs') (hp : vs.Perm vs') : h = h' := by
  obtain ⟨buckets, count, sum, least, greatest⟩ := h
  obtain ⟨buckets', count', sum', least', greatest'⟩ := h'
  obtain ⟨-, rfl, rfl, rfl, rfl, rfl⟩ := hh
  obtain ⟨-, rfl, rfl, rfl, rfl, rfl⟩ := hh'
  simp only [counts, hp.length_eq, hp.sum_eq, hp.foldl_eq, hp.countP_eq]

theorem Holds.max? (hne : vs ≠ []) : vs.max? = some h.maximum := by
  obtain ⟨m, hm⟩ := Option.isSome_iff_exists.mp (List.isSome_max?_of_ne_nil hne)
  rw [hm, maximum, hh.greatest, List.foldl_max, hm, Option.getD_some,
    Nat.max_eq_right (Nat.zero_le m)]

theorem Holds.min? (hne : vs ≠ []) : vs.min? = some h.least := by
  obtain ⟨m, hm⟩ := Option.isSome_iff_exists.mp (List.isSome_min?_of_ne_nil hne)
  have hlt := hh.bounded m (List.min?_mem hm)
  rw [hm, hh.least, List.foldl_min, hm, Option.getD_some,
    Nat.min_eq_right (Nat.le_sub_one_of_lt hlt)]

theorem Holds.le_maximum (hv : v ∈ vs) : v ≤ h.maximum :=
  (List.max?_eq_some_iff.mp (hh.max? (List.ne_nil_of_mem hv))).2 v hv

end Contents

section Ranks

variable {h : Histogram} {vs : List Nat}

theorem below_bucketCount (hb : ∀ v ∈ vs, v < wordLimit) : below vs bucketCount = vs.length :=
  List.countP_eq_length.mpr fun v hv => by simpa using bucketOf_lt (hb v hv)

theorem Holds.running (hh : Holds h vs) (k : Nat) :
    (h.buckets.take k).foldr (· + ·) 0 = below vs (min k bucketCount) := by
  have := sum_take_counts vs bucketCount 0 k
  rwa [show below vs 0 = 0 by simp [below], Nat.zero_add, Nat.zero_add, ← hh.buckets] at this

theorem Holds.total (hh : Holds h vs) : h.total = vs.length := by
  have hall : h.buckets.take bucketCount = h.buckets :=
    List.take_of_length_le (by rw [hh.buckets, counts, List.length_map, List.length_range'])
  have := hh.running bucketCount
  rwa [hall, Nat.min_self, below_bucketCount hh.bounded] at this

theorem Holds.atRank_of_rank (hh : Holds h vs) (ht : 1 ≤ t)
    (hv : (vs.mergeSort (· ≤ ·))[t - 1]? = some v) :
    h.atRank t = min (upperBound (bucketOf v)) h.maximum := by
  rw [atRank, hh.buckets, bucketAt_of_rank ht hh.bounded hv]
  rfl

theorem Holds.atRank_of_length_lt (hh : Holds h vs) (ht : vs.length < t) :
    h.atRank t = h.maximum := by
  have hzero : below vs 0 = 0 := by simp [below]
  have hscan := bucketAt_counts vs t bucketCount 0 (by omega)
  rw [hzero] at hscan
  rw [atRank, hh.buckets]
  obtain ⟨c, -, -, -, hc⟩ | ⟨hnone, -⟩ := hscan
  · have : below vs (c + 1) ≤ vs.length := List.countP_le_length
    omega
  · rw [hnone]
    rfl

theorem exists_ranked (ht : 1 ≤ t) (hle : t ≤ vs.length) :
    ∃ v, (vs.mergeSort (· ≤ ·))[t - 1]? = some v :=
  ⟨_, List.getElem?_eq_getElem (by rw [List.length_mergeSort]; omega)⟩

theorem Holds.atRank_mono (hh : Holds h vs) (ht : 1 ≤ t) (hle : t ≤ t') :
    h.atRank t ≤ h.atRank t' := by
  by_cases ht' : t' ≤ vs.length
  · obtain ⟨v, hv⟩ := exists_ranked ht (Nat.le_trans hle ht')
    obtain ⟨v', hv'⟩ := exists_ranked (Nat.le_trans ht hle) ht'
    have hsorted := sorted_mergeSort vs
    have hvv : v ≤ v' := by
      obtain ⟨hi, rfl⟩ := List.getElem?_eq_some_iff.mp hv
      obtain ⟨hj, rfl⟩ := List.getElem?_eq_some_iff.mp hv'
      rcases Nat.lt_or_eq_of_le (Nat.sub_le_sub_right hle 1) with hlt | heq
      · exact List.pairwise_iff_getElem.mp hsorted _ _ hi hj hlt
      · exact Nat.le_of_eq (by congr)
    rw [hh.atRank_of_rank ht hv, hh.atRank_of_rank (Nat.le_trans ht hle) hv']
    have := upperBound_mono (bucketOf_le_of_le hvv)
    omega
  · rw [hh.atRank_of_length_lt (Nat.lt_of_not_le ht')]
    unfold atRank maximum
    split
    · exact Nat.min_le_right ..
    · exact Nat.le_refl _

/-- What a histogram gives for ranks and fractions is true of these values. -/
structure RanksTruly (h : Histogram) (vs : List Nat) : Prop where
  /-- A fraction is looked up by its rank, which is at least one. -/
  ranked : ∀ p, 1 ≤ rankOf vs.length p ∧ h.percentile p = h.atRank (rankOf vs.length p)
  greatest : vs.max? = some h.maximum
  /-- The value of the rank is bounded from above, by less than twice the value and by no more than
  the greatest. -/
  within : ∀ t v, 1 ≤ t → (vs.mergeSort (· ≤ ·))[t - 1]? = some v →
    (v = 0 → h.atRank t = 0) ∧ (1 ≤ v → v ≤ h.atRank t ∧ h.atRank t ≤ min h.maximum (2 * v - 1))
  beyond : ∀ t, vs.length < t → h.atRank t = h.maximum
  monotone : ∀ t t', 1 ≤ t → t ≤ t' → h.atRank t ≤ h.atRank t'
  unordered : ∀ uses, (recorded uses).Perm vs → ∀ t, (after uses).atRank t = h.atRank t
  /-- No running total leaves the words, and no bound of a bucket does. -/
  fits : (∀ k, (h.buckets.take k).foldr (· + ·) 0 < wordLimit) ∧
    ∀ b < bucketCount, (upperWord b).toNat = upperBound b

/-- **Percentiles bound the true quantiles.** -/
theorem ranksTruly_after (uses : List Use) (hne : recorded uses ≠ [])
    (hlt : (recorded uses).length < wordLimit) : (after uses).RanksTruly (recorded uses) := by
  have hh := holds_after uses
  refine ⟨fun p => ⟨Nat.le_max_left .., ?_⟩, hh.max? hne, ?_, fun t => hh.atRank_of_length_lt,
    fun t t' => hh.atRank_mono, ?_, fun k => ?_, fun b => toNat_upperWord⟩
  · have hpos := List.length_pos_of_ne_nil hne
    rw [percentile, hh.total, if_neg (by omega)]
  · intro t v ht hv
    rw [hh.atRank_of_rank ht hv]
    have hmem : v ∈ recorded uses := (List.mergeSort_perm _ _).mem_iff.mp (List.mem_of_getElem? hv)
    constructor
    · rintro rfl
      exact Nat.min_eq_left (Nat.zero_le _)
    · intro hpos
      have h1 := le_upperBound v
      have h2 := upperBound_le hpos
      have h3 := hh.le_maximum hmem
      omega
  · intro uses' hp t
    rw [(holds_after uses').eq_of_perm hh hp]
  · rw [hh.running]
    exact Nat.lt_of_le_of_lt List.countP_le_length hlt

theorem ranksTruly_top : recorded [.record 5, .clear, .record 9223372036854775808,
      .record 18446744073709551615, .record 6] = [9223372036854775808, 18446744073709551615, 6] ∧
    (after [.record 5, .clear, .record 9223372036854775808, .record 18446744073709551615,
      .record 6]).RanksTruly [9223372036854775808, 18446744073709551615, 6] :=
  ⟨by decide, ranksTruly_after [.record 5, .clear, .record 9223372036854775808,
      .record 18446744073709551615, .record 6] (by decide) (by decide)⟩

end Ranks

section Summaries

/-- What a histogram says about these values besides ranks. -/
structure Summarizes (h : Histogram) (vs : List Nat) : Prop where
  greatest : vs.max? = some h.maximum
  count : h.count = vs.length % wordLimit
  /-- The least value, but zero for the largest word. -/
  least : ∃ m, vs.min? = some m ∧ h.minimum = if m = wordLimit - 1 then 0 else m
  mean : vs.length < wordLimit → h.mean = vs.sum % wordLimit / vs.length
  /-- A mean without overflow is between the extremes. -/
  between : vs.sum < wordLimit → vs.length < wordLimit → ∀ m, vs.min? = some m →
    m ≤ h.mean ∧ h.mean ≤ h.maximum

/-- **The summary of every histogram: only the largest word as the least value and sums that
overflow are wrong.** -/
theorem summarizes_after (uses : List Use) (hne : recorded uses ≠ []) :
    (after uses).Summarizes (recorded uses) := by
  have hh := holds_after uses
  have hpos := List.length_pos_of_ne_nil hne
  have hmean : (recorded uses).length < wordLimit →
      (after uses).mean = (recorded uses).sum % wordLimit / (recorded uses).length := by
    intro hlt
    rw [mean, hh.count, hh.sum, Nat.mod_eq_of_lt hlt, if_neg (by omega)]
  refine ⟨hh.max? hne, hh.count, ⟨_, hh.min? hne, rfl⟩, hmean, ?_⟩
  intro hsum hlt m hm
  rw [hmean hlt, Nat.mod_eq_of_lt hsum]
  have hleast := (List.min?_eq_some_iff.mp hm).2
  have hlower : (recorded uses).length * m ≤ _ := List.card_nsmul_le_sum _ m hleast
  have hupper : _ ≤ (recorded uses).length * _ := List.sum_le_card_nsmul _ _ fun v => hh.le_maximum
  exact ⟨(Nat.le_div_iff_mul_le hpos).mpr (by rwa [Nat.mul_comm]), Nat.div_le_of_le_mul hupper⟩

theorem summarizes_pair :
    recorded [.record 10, .record 30] ≠ [] ∧ (after [.record 10, .record 30]).Summarizes [10, 30] :=
  ⟨by decide, summarizes_after [.record 10, .record 30] (by decide)⟩

/-- The largest word alone has least value zero, and the mean of two equal values is zero if their
sum overflows. -/
theorem summary_misses : (recorded [.record 18446744073709551615] = [18446744073709551615] ∧
      (after [.record 18446744073709551615]).minimum = 0) ∧ recorded [.record 9223372036854775808,
      .record 9223372036854775808] = [9223372036854775808, 9223372036854775808] ∧
    (after [.record 9223372036854775808, .record 9223372036854775808]).minimum =
      9223372036854775808 ∧
    (after [.record 9223372036854775808, .record 9223372036854775808]).mean = 0 := by
  decide

end Summaries

end Histogram

end ManagedHeap
