import HumanScript.Span
import Mathlib.Order.Lattice
import Mathlib.Order.MinMax

/-! The least range over two ranges, also where it is too long to be kept whole. What is cut off of
a join is cut off of every longer one too, so the order in which ranges are joined does not matter.
-/
namespace HumanScript.Span

/-- The bytes from the first start to the last end of two ranges. -/
def reach (a b : Span) : Nat := max a.hi b.hi - min a.lo b.lo

/-- All of the first range lies in the second. -/
structure Within (s t : Span) : Prop where
  start : t.lo ≤ s.lo
  stop : s.hi ≤ t.hi

theorem reach_comm (a b : Span) : a.reach b = b.reach a := by
  rw [reach, reach, max_comm, min_comm]

theorem lo_le_hi (s : Span) : s.lo ≤ s.hi := Nat.le_add_right _ _

theorem ofBounds_hi (s : Span) : ofBounds s.lo s.hi = s := by
  have hlen := s.len_le
  ext
  · rfl
  · simp only [len_ofBounds, hi]
    omega

@[simp] theorem lo_join (a b : Span) : (a.join b).lo = min a.lo b.lo := rfl

theorem len_join (a b : Span) : (a.join b).len = min (a.reach b) maxSpanLength := rfl

theorem hi_join (a b : Span) :
    (a.join b).hi = min (max a.hi b.hi) (min a.lo b.lo + maxSpanLength) := by
  have ha := a.lo_le_hi
  simp only [hi, lo_join, len_join, reach] at *
  omega

/-- A range that is cut off counts as a whole one: the join starts no later, and so it is cut off no
later. -/
theorem ofBounds_join {lo hi : Nat} (h : lo ≤ hi) (c : Span) :
    (ofBounds lo hi).join c = ofBounds (min lo c.lo) (max hi c.hi) := by
  ext
  · rfl
  · simp only [len_join, reach, Span.hi, lo_ofBounds, len_ofBounds]
    omega

theorem join_self (a : Span) : a.join a = a := by
  rw [join, min_self, max_self, ofBounds_hi]

theorem join_comm (a b : Span) : a.join b = b.join a := by
  rw [join, join, min_comm, max_comm]

/-- Three ranges are joined into the one from the first start to the last end. -/
theorem join_join (a b c : Span) :
    (a.join b).join c = ofBounds (min (min a.lo b.lo) c.lo) (max (max a.hi b.hi) c.hi) := by
  refine ofBounds_join ?_ c
  calc min a.lo b.lo ≤ a.lo := min_le_left _ _
    _ ≤ a.hi := a.lo_le_hi
    _ ≤ max a.hi b.hi := le_max_left _ _

theorem join_assoc (a b c : Span) : (a.join b).join c = a.join (b.join c) := by
  rw [join_comm a (b.join c), join_join, join_join, min_assoc, min_comm a.lo, max_assoc,
    max_comm a.hi]

theorem within_join {a b : Span} (h : a.reach b ≤ maxSpanLength) : a.Within (a.join b) := by
  refine ⟨min_le_left _ _, ?_⟩
  rw [hi_join, le_min_iff]
  refine ⟨le_max_left _ _, ?_⟩
  have ha : a.hi ≤ max a.hi b.hi := le_max_left _ _
  rw [reach] at h
  omega

/-- Joining makes the ranges a semilattice, cut off or not. A join starts at the smaller start, and
it ends no later than both ranges do, so it fits where they fit. It covers both of them as long as
they do not reach too far; otherwise it has the greatest length. -/
theorem join_semilattice (a b c : Span) :
    a.join a = a ∧ a.join b = b.join a ∧ (a.join b).join c = a.join (b.join c) ∧
      (a.join b).lo = min a.lo b.lo ∧ (a.join b).hi ≤ max a.hi b.hi ∧
      (a.reach b ≤ maxSpanLength → a.Within (a.join b) ∧ b.Within (a.join b)) ∧
      (maxSpanLength < a.reach b → (a.join b).len = maxSpanLength) := by
  refine ⟨join_self a, join_comm a b, join_assoc a b c, lo_join a b, ?_, ?_, ?_⟩
  · rw [hi_join]
    exact min_le_left _ _
  · intro h
    have h' : b.reach a ≤ maxSpanLength := by rwa [reach_comm]
    exact ⟨within_join h, join_comm b a ▸ within_join h'⟩
  · intro h
    rw [len_join]
    exact min_eq_right h.le

/-- Two ranges too far apart to be covered, and a third one before both. -/
theorem join_semilattice_far_apart :
    let a := ofBounds 7 9
    let b := ofBounds 4294967300 4294967310
    let c := ofBounds 2 4
    maxSpanLength < a.reach b ∧ (a.join b).len = maxSpanLength ∧
      (a.join b).join c = a.join (b.join c) ∧ a.reach c ≤ maxSpanLength ∧
      a.Within (a.join c) ∧ c.Within (a.join c) := by
  intro a b c
  have hfar : maxSpanLength < a.reach b := by decide
  have hnear : a.reach c ≤ maxSpanLength := by decide
  obtain ⟨-, -, hassoc, -, -, -, hlen⟩ := join_semilattice a b c
  obtain ⟨-, -, -, -, -, hcovers, -⟩ := join_semilattice a c b
  exact ⟨hfar, hlen hfar, hassoc, hnear, hcovers hnear⟩

end HumanScript.Span
