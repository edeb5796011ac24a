import Ligase.Fed.Send

/-!
# Requests for missing events

Between two successive events of a sorted batch `getMissingEvents` asks for what is missing. The
size of a gap is a difference of two 64-bit numbers.

* **`gaps_cover_iff`**: when the requests cover exactly what is missing.
-/

namespace Ligase.Fed

open Lib List

/-! ## Requested offsets -/

def GetMissingEventsInfo.Asks (r : GetMissingEventsInfo) (x : Int) : Prop :=
  r.domainOffset - r.limit ≤ x ∧ x ≤ r.domainOffset - 1

instance (r : GetMissingEventsInfo) (x : Int) : Decidable (r.Asks x) :=
  inferInstanceAs (Decidable (_ ∧ _))

def asked (requests : List GetMissingEventsInfo) (x : Int) : Nat :=
  requests.countP fun r => decide (r.Asks x)

def Received (pdus : List Pdu) (x : Int) : Prop := ∃ p ∈ pdus, p.domainOffset = x

/-- Every offset after the recorded one and up to the largest one received is received or asked for
once, and none is both. -/
structure CoversExactly (offset : Int) (pdus : List Pdu) (requests : List GetMissingEventsInfo) :
    Prop where
  covered : ∀ x, offset < x → (∃ p ∈ pdus, x ≤ p.domainOffset) →
    Received pdus x ∨ asked requests x = 1
  disjoint : ∀ r ∈ requests, ∀ p ∈ pdus, ¬ r.Asks p.domainOffset

theorem asked_gap {a x : Int} {p : Pdu} (ha : IsInt64 a) (hp : IsInt64 p.domainOffset) :
    asked (gap a p) x =
      if a < x ∧ x < p.domainOffset ∧ p.domainOffset - a - 1 ≤ maxInt64 then 1 else 0 := by
  obtain ⟨ha₁, ha₂⟩ := ha
  obtain ⟨hp₁, hp₂⟩ := hp
  unfold gap
  by_cases hlt : a < p.domainOffset
  · have hpred : int64 (p.domainOffset - 1) = p.domainOffset - 1 :=
      int64_eq_self ⟨by omega, by omega⟩
    rw [hpred]
    by_cases hnext : a = p.domainOffset - 1
    · rw [if_neg fun h => h.1 hnext, if_neg (by omega)]
      rfl
    · rw [if_pos ⟨hnext, hlt⟩, int64_of_nonneg (by omega) (by omega)]
      unfold asked
      rw [countP_singleton]
      refine if_congr ?_ rfl rfl
      rw [decide_eq_true_eq]
      unfold GetMissingEventsInfo.Asks
      unfold minInt64 at ha₁
      unfold maxInt64 at hp₂ ⊢
      dsimp only
      split_ifs <;> omega
  · rw [if_neg fun h => hlt h.2, if_neg (by omega)]
    rfl

/-! ## Successive events -/

abbrev InOrder (pdus : List Pdu) : Prop := pdus.Pairwise fun p q => p.domainOffset ≤ q.domainOffset

def Next (pdus : List Pdu) (p q : Pdu) : Prop := [p, q] <:+: pdus

variable {pdus : List Pdu} {p q : Pdu} {x : Int}

theorem InOrder.first_le {a : Pdu} (hs : InOrder (a :: pdus)) (hp : p ∈ a :: pdus) :
    a.domainOffset ≤ p.domainOffset := by
  rcases mem_cons.mp hp with rfl | hp
  · exact Int.le_refl _
  · exact (pairwise_cons.mp hs).1 p hp

theorem next_cons_cons {a b : Pdu} : Next (a :: b :: pdus) p q ↔
    p = a ∧ q = b ∨ Next (b :: pdus) p q := by
  unfold Next
  rw [infix_cons_iff, cons_prefix_cons, cons_prefix_cons]
  simp

theorem not_next_singleton {a : Pdu} : ¬ Next [a] p q := by
  intro h
  have := h.length_le
  simp at this

theorem Next.mem (h : Next pdus p q) : p ∈ pdus ∧ q ∈ pdus :=
  ⟨h.subset (by simp), h.subset (by simp)⟩

theorem Next.outside (h : Next pdus p q) (hs : InOrder pdus) {r : Pdu} (hr : r ∈ pdus) :
    r.domainOffset ≤ p.domainOffset ∨ q.domainOffset ≤ r.domainOffset := by
  obtain ⟨s, t, rfl⟩ := h
  rw [InOrder, append_assoc, pairwise_append] at hs
  obtain ⟨-, hs, hst⟩ := hs
  rcases mem_append.mp hr with hr | hr
  · rcases mem_append.mp hr with hr | hr
    · exact .inl (hst r hr p (by simp))
    · rcases mem_pair.mp hr with rfl | rfl
      · exact .inl (Int.le_refl _)
      · exact .inr (Int.le_refl _)
  · have hq := (pairwise_cons.mp hs).2
    exact .inr ((pairwise_cons.mp hq).1 r hr)

theorem next_exists {a : Pdu} (hlow : a.domainOffset < x)
    (hhigh : ∃ r ∈ pdus, x < r.domainOffset) (hx : ¬ Received pdus x) :
    ∃ p q, Next (a :: pdus) p q ∧ p.domainOffset < x ∧ x < q.domainOffset := by
  induction pdus generalizing a with
  | nil =>
    obtain ⟨r, hr, -⟩ := hhigh
    exact absurd hr not_mem_nil
  | cons b pdus ih =>
    rcases Int.lt_trichotomy x b.domainOffset with hb | hb | hb
    · exact ⟨a, b, next_cons_cons.mpr (.inl ⟨rfl, rfl⟩), hlow, hb⟩
    · exact absurd ⟨b, mem_cons_self, hb.symm⟩ hx
    · obtain ⟨r, hr, hxr⟩ := hhigh
      rcases mem_cons.mp hr with rfl | hr
      · omega
      · obtain ⟨p, q, hnext, hpx, hxq⟩ := ih hb ⟨r, hr, hxr⟩
          fun ⟨s, hs, he⟩ => hx ⟨s, mem_cons_of_mem _ hs, he⟩
        exact ⟨p, q, next_cons_cons.mpr (.inr hnext), hpx, hxq⟩

def InGap (pdus : List Pdu) (x : Int) : Prop :=
  ∃ p q, Next pdus p q ∧ p.domainOffset < x ∧ x < q.domainOffset ∧
    q.domainOffset - p.domainOffset - 1 ≤ maxInt64

theorem not_inGap_nil : ¬ InGap [] x := by
  rintro ⟨p, q, h, -⟩
  exact absurd h.mem.1 not_mem_nil

theorem not_inGap_singleton {a : Pdu} : ¬ InGap [a] x := by
  rintro ⟨p, q, h, -⟩
  exact not_next_singleton h

theorem inGap_cons_cons {a b : Pdu} : InGap (a :: b :: pdus) x ↔
    (a.domainOffset < x ∧ x < b.domainOffset ∧ b.domainOffset - a.domainOffset - 1 ≤ maxInt64) ∨
      InGap (b :: pdus) x := by
  simp only [InGap, next_cons_cons]
  constructor
  · rintro ⟨p, q, ⟨rfl, rfl⟩ | hnext, h⟩
    · exact .inl h
    · exact .inr ⟨p, q, hnext, h⟩
  · rintro (h | ⟨p, q, hnext, h⟩)
    · exact ⟨a, b, .inl ⟨rfl, rfl⟩, h⟩
    · exact ⟨p, q, .inr hnext, h⟩

theorem InGap.first_lt {a : Pdu} (h : InGap (a :: pdus) x) (hs : InOrder (a :: pdus)) :
    a.domainOffset < x := by
  obtain ⟨p, q, hnext, hpx, -⟩ := h
  exact Int.lt_of_le_of_lt (hs.first_le hnext.mem.1) hpx

open Classical in
theorem countP_gaps (hs : InOrder pdus) (h64 : ∀ p ∈ pdus, IsInt64 p.domainOffset) (x : Int) :
    asked (gaps pdus) x = if InGap pdus x then 1 else 0 := by
  induction pdus with
  | nil => exact (if_neg not_inGap_nil).symm
  | cons a pdus ih =>
    cases pdus with
    | nil => exact (if_neg not_inGap_singleton).symm
    | cons b pdus =>
      have hs' : InOrder (b :: pdus) := (pairwise_cons.mp hs).2
      have hgap := asked_gap (x := x) (h64 a (by simp)) (h64 b (by simp))
      have hrest := ih hs' fun p hp => h64 p (mem_cons_of_mem a hp)
      have hsum : asked (gaps (a :: b :: pdus)) x =
          asked (gap a.domainOffset b) x + asked (gaps (b :: pdus)) x := countP_append
      rw [hsum, hgap, hrest]
      by_cases hlate : InGap (b :: pdus) x
      · -- what is in a later gap is not in the first one
        have := hlate.first_lt hs'
        rw [if_pos hlate, if_neg (by omega), if_pos (inGap_cons_cons.mpr (.inr hlate))]
      · rw [if_neg hlate, Nat.add_zero]
        refine if_congr ?_ rfl rfl
        rw [inGap_cons_cons]
        exact ⟨.inl, fun h => h.resolve_right hlate⟩

/-! ## The requests of a batch -/

def Narrow (offset : Int) (pdus : List Pdu) : Prop :=
  ∀ p ∈ pdus, ∀ q ∈ pdus, p.domainOffset < q.domainOffset → offset + 1 < q.domainOffset →
    (∀ r ∈ pdus, r.domainOffset ≤ p.domainOffset ∨ q.domainOffset ≤ r.domainOffset) →
    q.domainOffset - p.domainOffset - 1 ≤ maxInt64

section
variable {a : Pdu} {o : EventOffset} (ho : 0 < o.offset) (ho64 : o.offset ≤ maxInt64)
  (hs : InOrder (a :: pdus)) (h64 : ∀ p ∈ a :: pdus, IsInt64 p.domainOffset)
include ho ho64 hs h64

open Classical in
theorem asked_getMissingEvents (x : Int) : asked (getMissingEvents o (a :: pdus)) x =
    (if o.offset < x ∧ x < a.domainOffset then 1 else 0) +
      if InGap (a :: pdus) x then 1 else 0 := by
  have hsum : asked (getMissingEvents o (a :: pdus)) x =
      asked (gap o.offset a) x + asked (gaps (a :: pdus)) x := by
    unfold getMissingEvents
    dsimp only
    rw [if_pos (show o.offset ≠ 0 by omega)]
    exact countP_append
  obtain ⟨ha₁, ha₂⟩ := h64 a mem_cons_self
  have hmin : minInt64 ≤ 0 := by decide
  rw [hsum, asked_gap ⟨by omega, ho64⟩ ⟨ha₁, ha₂⟩, countP_gaps hs h64]
  congr 1
  refine if_congr ?_ rfl rfl
  omega

theorem asked_received (hx : Received (a :: pdus) x) :
    asked (getMissingEvents o (a :: pdus)) x = 0 := by
  obtain ⟨p, hp, rfl⟩ := hx
  rw [asked_getMissingEvents ho ho64 hs h64, if_neg, if_neg]
  · rintro ⟨r, q, hnext, hr, hq, -⟩
    have := hnext.outside hs hp
    omega
  · rintro ⟨-, hlt⟩
    have := hs.first_le hp
    omega

theorem asked_wide (hp : p ∈ a :: pdus) (hq : q ∈ a :: pdus)
    (hout : ∀ r ∈ a :: pdus, r.domainOffset ≤ p.domainOffset ∨ q.domainOffset ≤ r.domainOffset)
    (hwide : maxInt64 < q.domainOffset - p.domainOffset - 1) :
    asked (getMissingEvents o (a :: pdus)) (q.domainOffset - 1) = 0 := by
  rw [asked_getMissingEvents ho ho64 hs h64, if_neg, if_neg]
  · rintro ⟨r, s, hnext, hr, hs', hle⟩
    have hq' := hnext.outside hs hq
    have hr' := hout r hnext.mem.1
    omega
  · rintro ⟨-, hlt⟩
    have := hs.first_le hp
    omega

theorem asked_missing (hnarrow : Narrow o.offset (a :: pdus)) (hox : o.offset < x)
    (hq : q ∈ a :: pdus) (hxq : x < q.domainOffset) (hx : ¬ Received (a :: pdus) x) :
    asked (getMissingEvents o (a :: pdus)) x = 1 := by
  rw [asked_getMissingEvents ho ho64 hs h64]
  by_cases hxa : x < a.domainOffset
  · rw [if_pos ⟨hox, hxa⟩, if_neg]
    intro hgap
    have := hgap.first_lt hs
    omega
  · have hax : a.domainOffset < x := by
      have : a.domainOffset ≠ x := fun he => hx ⟨a, mem_cons_self, he⟩
      omega
    have hq' : q ∈ pdus := by
      rcases mem_cons.mp hq with rfl | hq
      · omega
      · exact hq
    obtain ⟨r, s, hnext, hr, hs'⟩ := next_exists hax ⟨q, hq', hxq⟩
      fun ⟨t, ht, he⟩ => hx ⟨t, mem_cons_of_mem _ ht, he⟩
    have hle := hnarrow r hnext.mem.1 s hnext.mem.2 (by omega) (by omega)
      fun t ht => hnext.outside hs ht
    rw [if_neg (by omega), if_pos ⟨r, s, hnext, hr, hs', hle⟩]

theorem covers_iff_of_inOrder :
    CoversExactly o.offset (a :: pdus) (getMissingEvents o (a :: pdus)) ↔
      Narrow o.offset (a :: pdus) := by
  constructor
  · intro hcov p hp q hq hpq hoq hout
    by_contra hwide
    have hnot : ¬ Received (a :: pdus) (q.domainOffset - 1) := by
      rintro ⟨r, hr, he⟩
      have := hout r hr
      omega
    have hone := (hcov.covered (q.domainOffset - 1) (by omega) ⟨q, hq, by omega⟩).resolve_left hnot
    have hzero := asked_wide ho ho64 hs h64 hp hq hout (by omega)
    omega
  · intro hnarrow
    constructor
    · rintro x hox ⟨q, hq, hxq⟩
      by_cases hx : Received (a :: pdus) x
      · exact .inl hx
      · have hne : q.domainOffset ≠ x := fun he => hx ⟨q, hq, he⟩
        exact .inr (asked_missing ho ho64 hs h64 hnarrow hox hq (by omega) hx)
    · intro r hr p hp hask
      have h0 := asked_received ho ho64 hs h64 ⟨p, hp, rfl⟩
      exact countP_eq_zero.mp h0 r hr (decide_eq_true hask)

end

theorem covers_perm {l : List Pdu} (h : l.Perm pdus) (offset : Int)
    (requests : List GetMissingEventsInfo) :
    CoversExactly offset l requests ↔ CoversExactly offset pdus requests := by
  have hmem : ∀ p, p ∈ l ↔ p ∈ pdus := fun p => h.mem_iff
  constructor
  all_goals
    rintro ⟨hc, hd⟩
    exact ⟨by simpa only [Received, hmem] using hc, by simpa only [hmem] using hd⟩

theorem narrow_perm {l : List Pdu} (h : l.Perm pdus) (offset : Int) :
    Narrow offset l ↔ Narrow offset pdus := by
  have hmem : ∀ p, p ∈ l ↔ p ∈ pdus := fun p => h.mem_iff
  simp only [Narrow, hmem]

/-- **The requests cover exactly what is missing** if and only if no gap that ends after the
recorded offset is wider than 2^63: the size of such a gap is negative. -/
theorem gaps_cover_iff (S : Sorter) {o : EventOffset} {pdus : List Pdu} (ho : 0 < o.offset)
    (ho64 : IsInt64 o.offset) (hne : pdus ≠ []) (h64 : ∀ p ∈ pdus, IsInt64 p.domainOffset) :
    CoversExactly o.offset pdus (getMissingEvents o (S.sort pdus)) ↔ Narrow o.offset pdus := by
  have hperm := S.perm pdus
  have hs := S.sorted pdus
  rw [← covers_perm hperm, ← narrow_perm hperm]
  cases hl : S.sort pdus with
  | nil =>
    rw [hl] at hperm
    exact absurd hperm.nil_eq.symm hne
  | cons a l =>
    rw [hl] at hperm hs
    exact covers_iff_of_inOrder ho ho64.2 hs fun p hp => h64 p (hperm.mem_iff.mp hp)

def pduAt (domainOffset : Int) : Pdu :=
  ⟨"$" ++ toString domainOffset ++ ":y", "m.room.message", "", domainOffset, 0⟩

theorem gaps_cover_iff_mixed :
    CoversExactly 5 ([9, 3, 12, 9].map pduAt)
      (getMissingEvents ⟨"$5:y", 5⟩ (insertionSorter.sort ([9, 3, 12, 9].map pduAt))) := by
  refine (gaps_cover_iff insertionSorter (o := ⟨"$5:y", 5⟩) (by decide) ⟨by decide, by decide⟩
    (by simp) ?_).mpr ?_
  · simp [pduAt, IsInt64, minInt64, maxInt64]
  · simp [Narrow, pduAt, maxInt64]

/-- After offset 1 the events -2^63 and 3 are received: the size of the gap is a negative number of
64 bits, and nobody asks for offset 2. -/
theorem wide_gap_unasked :
    getMissingEvents ⟨"$1:y", 1⟩ (insertionSorter.sort [pduAt minInt64, pduAt 3]) =
        [⟨"$3:y", minInt64 + 2, 3⟩] ∧
      ¬ CoversExactly 1 [pduAt minInt64, pduAt 3]
        (getMissingEvents ⟨"$1:y", 1⟩ (insertionSorter.sort [pduAt minInt64, pduAt 3])) := by
  have hreq : getMissingEvents ⟨"$1:y", 1⟩ (insertionSorter.sort [pduAt minInt64, pduAt 3]) =
      [⟨"$3:y", minInt64 + 2, 3⟩] := by decide
  refine ⟨hreq, fun h => ?_⟩
  rcases h.covered 2 (by decide) ⟨pduAt 3, by simp, by decide⟩ with ⟨p, hp, he⟩ | hone
  · rcases mem_pair.mp hp with rfl | rfl
    all_goals exact absurd he (by decide)
  · exact absurd hone (by decide)

end Ligase.Fed
