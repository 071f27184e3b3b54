import HumanScript.Proofs.Typing
import Mathlib.Data.List.Basic

/-! Scopes in code with braces, as properties of the order in which names are declared and used. -/
namespace HumanScript

/-- What one passes in code with braces, from its start on. -/
inductive Event where
  | enter
  | leave
  | declare (name : String)
  | use (name : String)
deriving DecidableEq

namespace Event

/-- The block that is open before the events is not left in them. -/
def StaysOpen (es : List Event) : Prop :=
  ∀ front, front <+: es → front.count .leave ≤ front.count .enter

/-- Every use of a name comes after a declaration of it, in a block that is still open. -/
def NameInScope (x : String) (es : List Event) : Prop :=
  ∀ before after, es = before ++ .use x :: after →
    ∃ front between, before = front ++ .declare x :: between ∧ StaysOpen between

def InScope (es : List Event) : Prop := ∀ x, NameInScope x es

def braced (es : List Event) : List Event := .enter :: (es ++ [.leave])

/-- Events that leave exactly the blocks they enter. -/
structure Balanced (es : List Event) : Prop where
  staysOpen : StaysOpen es
  count_leave : es.count .leave = es.count .enter

namespace Balanced

theorem of_not_mem {es : List Event} (henter : .enter ∉ es) (hleave : .leave ∉ es) :
    Balanced es := by
  constructor
  · intro front hfront
    have hnone : .leave ∉ front := fun h => hleave (hfront.subset h)
    rw [List.count_eq_zero.mpr hnone]
    exact Nat.zero_le _
  · rw [List.count_eq_zero.mpr henter, List.count_eq_zero.mpr hleave]

theorem append {es fs : List Event} (he : Balanced es) (hf : Balanced fs) :
    Balanced (es ++ fs) := by
  constructor
  · rintro front ⟨rest, hrest⟩
    rcases List.append_eq_append_iff.mp hrest with ⟨more, rfl, _⟩ | ⟨more, rfl, rfl⟩
    · exact he.staysOpen front (List.prefix_append _ _)
    · have hmore := hf.staysOpen more (List.prefix_append _ _)
      rw [List.count_append, List.count_append, he.count_leave]
      omega
  · rw [List.count_append, List.count_append, he.count_leave, hf.count_leave]

theorem braced {es : List Event} (h : Balanced es) : Balanced (braced es) := by
  have henter : (Event.braced es).count .enter = es.count .enter + 1 := by
    simp [Event.braced, List.count_append]
  have hleave : (Event.braced es).count .leave = es.count .leave + 1 := by
    simp [Event.braced, List.count_append]
  have hcount := h.count_leave
  constructor
  · intro front hfront
    rcases List.prefix_cons_iff.mp hfront with rfl | ⟨inner, rfl, hinner⟩
    · exact Nat.le_refl _
    · rcases List.prefix_concat_iff.mp hinner with rfl | hes
      · change (Event.braced es).count .leave ≤ (Event.braced es).count .enter
        omega
      · have hopen := h.staysOpen inner hes
        rw [List.count_cons_self, List.count_cons_of_ne (by simp)]
        omega
  · omega

theorem uses (names : List String) : Balanced (names.map .use) :=
  of_not_mem (by simp) (by simp)

end Balanced

theorem not_staysOpen_of_balanced {es fs : List Event} (h : Balanced es) :
    ¬ StaysOpen (es ++ .leave :: fs) := by
  intro hopen
  have hfront := hopen (es ++ [.leave]) ⟨fs, by simp⟩
  have henter : (es ++ [Event.leave]).count .enter = es.count .enter := by
    simp [List.count_append]
  have hleave : (es ++ [Event.leave]).count .leave = es.count .leave + 1 := by
    simp [List.count_append]
  have hcount := h.count_leave
  omega

/-- Names are declared once and used from then on, in whatever block. -/
inductive Flat : Context → List Event → Context → Prop where
  | nil {Γ : Context} : Flat Γ [] Γ
  | enter {Γ Δ : Context} {es : List Event} (h : Flat Γ es Δ) : Flat Γ (.enter :: es) Δ
  | leave {Γ Δ : Context} {es : List Event} (h : Flat Γ es Δ) : Flat Γ (.leave :: es) Δ
  | declare {Γ Δ : Context} {es : List Event} {x : String} {ty : Ty} (hnew : Γ x = none)
      (h : Flat (Γ.declare x ty) es Δ) : Flat Γ (.declare x :: es) Δ
  | use {Γ Δ : Context} {es : List Event} {x : String} (hknown : Γ x ≠ none)
      (h : Flat Γ es Δ) : Flat Γ (.use x :: es) Δ

namespace Flat
variable {Γ Δ Θ : Context} {es fs front rest : List Event} {x : String}

theorem append (he : Flat Γ es Δ) (hf : Flat Δ fs Θ) : Flat Γ (es ++ fs) Θ := by
  induction he with
  | nil => exact hf
  | enter _ ih => exact .enter (ih hf)
  | leave _ ih => exact .leave (ih hf)
  | declare hnew _ ih => exact .declare hnew (ih hf)
  | use hknown _ ih => exact .use hknown (ih hf)

theorem exists_of_append (h : Flat Γ (es ++ fs) Θ) : ∃ Δ, Flat Γ es Δ ∧ Flat Δ fs Θ := by
  induction es generalizing Γ with
  | nil => exact ⟨Γ, .nil, h⟩
  | cons e es ih =>
    cases h with
    | enter h =>
      obtain ⟨Δ, he, hf⟩ := ih h
      exact ⟨Δ, .enter he, hf⟩
    | leave h =>
      obtain ⟨Δ, he, hf⟩ := ih h
      exact ⟨Δ, .leave he, hf⟩
    | declare hnew h =>
      obtain ⟨Δ, he, hf⟩ := ih h
      exact ⟨Δ, .declare hnew he, hf⟩
    | use hknown h =>
      obtain ⟨Δ, he, hf⟩ := ih h
      exact ⟨Δ, .use hknown he, hf⟩

theorem braced (h : Flat Γ es Δ) : Flat Γ (braced es) Δ := .enter (h.append (.leave .nil))

theorem uses {names : List String} (h : ∀ x ∈ names, Γ x ≠ none) :
    Flat Γ (names.map .use) Γ := by
  induction names with
  | nil => exact .nil
  | cons x names ih => exact .use (h x (by simp)) (ih fun y hy => h y (by simp [hy]))

theorem known_iff (h : Flat Γ es Δ) : Δ x ≠ none ↔ Γ x ≠ none ∨ .declare x ∈ es := by
  induction h with
  | nil => simp
  | enter _ ih | leave _ ih => rw [ih]; simp
  | @declare Γ _ _ y _ hnew _ ih =>
    rw [ih]
    by_cases hxy : x = y
    · subst hxy
      simp [Context.declare]
    · simp [Context.declare, hxy]
  | use hknown _ ih => rw [ih]; simp

theorem known_of_use (h : Flat Γ es Δ) (hx : .use x ∈ es) : Δ x ≠ none := by
  induction h with
  | nil => cases hx
  | enter _ ih | leave _ ih | declare _ _ ih => exact ih (by simpa using hx)
  | @use Γ Δ es y hknown h ih =>
    rcases List.mem_cons.mp hx with heq | hx
    · cases heq
      exact h.known_iff.mpr (.inl hknown)
    · exact ih hx

theorem not_mem_of_known (h : Flat Γ es Δ) (hx : Γ x ≠ none) : .declare x ∉ es := by
  induction h with
  | nil => simp
  | enter _ ih | leave _ ih | use _ _ ih => simpa using ih hx
  | @declare Γ _ _ y _ hnew _ ih =>
    have hxy : x ≠ y := by
      rintro rfl
      exact hx hnew
    have hrest := ih (by simpa [Context.declare, hxy] using hx)
    simp [hxy, hrest]

/-- A declaration is the only one of its name, and no use comes before it. -/
theorem not_mem_of_declare (h : Flat Γ (front ++ .declare x :: rest) Θ) :
    .declare x ∉ front ∧ .use x ∉ front ∧ .declare x ∉ rest := by
  obtain ⟨Δ, hfront, hrest⟩ := h.exists_of_append
  cases hrest with
  | @declare _ _ _ _ ty hnew hrest =>
    refine ⟨fun hx => ?_, fun hx => ?_, ?_⟩
    · exact hfront.known_iff.mpr (.inr hx) hnew
    · exact hfront.known_of_use hx hnew
    · exact hrest.not_mem_of_known (by simp [Context.declare])

theorem declare_mem_of_use (h : Flat .empty (front ++ .use x :: rest) Θ) :
    .declare x ∈ front := by
  obtain ⟨Δ, hfront, hrest⟩ := h.exists_of_append
  cases hrest with
  | use hknown _ => exact (hfront.known_iff.mp hknown).resolve_left fun h => h rfl

end Flat

namespace Flat
variable {Δ : Context} {before between post : List Event} {x : String}

/-- A use behind the block would need the block still open, but it has been left. -/
theorem use_not_mem_of_nameInScope (hbetween : Balanced between)
    (h : Flat .empty (before ++ .declare x :: (between ++ .leave :: post)) Δ)
    (hscope : NameInScope x (before ++ .declare x :: (between ++ .leave :: post))) :
    .use x ∉ post := by
  intro hmem
  obtain ⟨m, after, rfl⟩ := List.append_of_mem hmem
  obtain ⟨hbefore, _, hafter⟩ := h.not_mem_of_declare
  obtain ⟨f, b, heq, hopen⟩ := hscope (before ++ .declare x :: (between ++ .leave :: m)) after
    (by simp)
  have hfront : between ++ .leave :: m <+: between ++ .leave :: (m ++ .use x :: after) :=
    ⟨.use x :: after, by simp⟩
  have hafter' : .declare x ∉ between ++ .leave :: m := fun hm => hafter (hfront.subset hm)
  -- The name is declared once, so the declaration in scope is this one.
  obtain ⟨_, _, rfl⟩ := (List.append_cons_inj_of_notMem hbefore hafter').mp heq
  exact not_staysOpen_of_balanced hbetween hopen

theorem nameInScope_of_use_not_mem (hbetween : Balanced between)
    (h : Flat .empty (before ++ .declare x :: (between ++ .leave :: post)) Δ)
    (hpost : .use x ∉ post) :
    NameInScope x (before ++ .declare x :: (between ++ .leave :: post)) := by
  intro front after heq
  obtain ⟨hbefore, _, hafter⟩ := h.not_mem_of_declare
  obtain ⟨f, b, rfl⟩ := List.append_of_mem (heq ▸ h).declare_mem_of_use
  have hcut : f ++ .declare x :: b ++ .use x :: after =
      f ++ .declare x :: (b ++ .use x :: after) := by simp
  obtain ⟨_, _, hb⟩ := (List.append_cons_inj_of_notMem hbefore hafter).mp (heq.trans hcut)
  refine ⟨f, b, rfl, ?_⟩
  rcases List.append_eq_append_iff.mp hb with ⟨c, rfl, hc⟩ | ⟨c, rfl, _⟩
  -- Either the use is behind the block, or what lies before it is a front of balanced events.
  · cases c with
    | nil => cases hc
    | cons e c =>
      cases hc
      exact absurd (by simp) hpost
  · exact fun g hg => hbetween.staysOpen g (hg.trans (List.prefix_append _ _))

theorem nameInScope_of_not_mem {es : List Event} (h : Flat .empty es Δ) (hx : .declare x ∉ es) :
    NameInScope x es := by
  rintro before after rfl
  exact absurd (List.mem_append_left _ h.declare_mem_of_use) hx

end Flat

/-- A block of the code has a declaration of the name among its own statements, and so many uses
of it. -/
def Encloses (es : List Event) (x : String) (uses : Nat) : Prop :=
  ∃ pre front between post,
    es = pre ++ .enter :: (front ++ .declare x :: (between ++ .leave :: post)) ∧
      Balanced between ∧ (front ++ between).count (.use x) = uses

/-- A name declared in a block is in scope exactly if all its uses are in that block. -/
theorem Flat.nameInScope_iff {Δ : Context} {es : List Event} {x : String} {uses : Nat}
    (h : Flat .empty es Δ) (hx : Encloses es x uses) :
    NameInScope x es ↔ uses = es.count (.use x) := by
  obtain ⟨pre, front, between, post, rfl, hbetween, rfl⟩ := hx
  have hassoc : pre ++ .enter :: (front ++ .declare x :: (between ++ .leave :: post)) =
      (pre ++ .enter :: front) ++ .declare x :: (between ++ .leave :: post) := by simp
  rw [hassoc] at h ⊢
  have hunused := h.not_mem_of_declare.2.1
  have hnone : pre.count (.use x) = 0 :=
    List.count_eq_zero.mpr fun hmem => hunused (List.mem_append_left _ hmem)
  have hcount : (pre ++ .enter :: front ++ .declare x :: (between ++ .leave :: post)).count
      (.use x) = (front ++ between).count (.use x) + post.count (.use x) := by
    simp only [List.count_append, List.count_cons, beq_iff_eq, reduceCtorEq, if_false, hnone]
    omega
  rw [hcount]
  constructor
  · intro hscope
    have hpost := h.use_not_mem_of_nameInScope hbetween hscope
    rw [List.count_eq_zero.mpr hpost, Nat.add_zero]
  · intro huses
    exact h.nameInScope_of_use_not_mem hbetween (List.count_eq_zero.mp (by omega))

namespace Encloses
variable {es : List Event} {x : String} {uses : Nat}

theorem append_left (fs : List Event) (h : Encloses es x uses) : Encloses (fs ++ es) x uses := by
  obtain ⟨pre, front, between, post, rfl, hbetween, rfl⟩ := h
  exact ⟨fs ++ pre, front, between, post, by simp, hbetween, rfl⟩

theorem append_right (gs : List Event) (h : Encloses es x uses) : Encloses (es ++ gs) x uses := by
  obtain ⟨pre, front, between, post, rfl, hbetween, rfl⟩ := h
  exact ⟨pre, front, between, post ++ gs, by simp, hbetween, rfl⟩

theorem braced (h : Encloses es x uses) : Encloses (braced es) x uses :=
  (h.append_right [.leave]).append_left [.enter]

end Encloses

end Event
end HumanScript
