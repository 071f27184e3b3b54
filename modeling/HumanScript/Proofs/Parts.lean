import HumanScript.Proofs.UniqueLines

/-! Parts of a program. What stands inside of a statement has its names among those of the statement,
is typed if the statement is, and has its lines in the code of the statement. -/
namespace HumanScript

/-! The names in an expression are used by the statement around it. -/

section Names
variable {α : Type}

theorem Expr.names_subset_of_part {e f : Expr α} (h : f ∈ e.parts) : f.names ⊆ e.names := by
  induction e with
  | literal | name =>
    rw [List.mem_singleton.mp h]
    exact List.Subset.refl _
  | binary op lhs rhs span info ihl ihr =>
    rcases List.mem_cons.mp h with rfl | h
    · exact List.Subset.refl _
    rcases List.mem_append.mp h with h | h
    · exact List.subset_append_of_subset_left _ (ihl h)
    · exact List.subset_append_of_subset_right _ (ihr h)

mutual

theorem Stmt.names_subset_uses {s : Stmt α} {e : Expr α} (h : e ∈ s.exprs) :
    e.names ⊆ s.uses := by
  cases s with
  | declare ty name init span => exact Expr.names_subset_of_part h
  | print value span => exact Expr.names_subset_of_part h
  | ifThen condition thenArm span =>
    rcases List.mem_append.mp h with h | h
    · exact List.subset_append_of_subset_left _ (Expr.names_subset_of_part h)
    · exact List.subset_append_of_subset_right _ (names_subset_uses h)
  | ifElse condition thenArm elseArm span =>
    rcases List.mem_append.mp h with h | h
    · rcases List.mem_append.mp h with h | h
      · exact List.subset_append_of_subset_left _
          (List.subset_append_of_subset_left _ (Expr.names_subset_of_part h))
      · exact List.subset_append_of_subset_left _
          (List.subset_append_of_subset_right _ (names_subset_uses h))
    · exact List.subset_append_of_subset_right _ (names_subset_uses h)
  | block body span => exact names_subset_usesAll h

theorem Stmt.names_subset_usesAll {body : List (Stmt α)} {e : Expr α} (h : e ∈ exprsAll body) :
    e.names ⊆ usesAll body := by
  cases body with
  | nil => cases h
  | cons s body =>
    rcases List.mem_append.mp h with h | h
    · exact List.subset_append_of_subset_left _ (names_subset_uses h)
    · exact List.subset_append_of_subset_right _ (names_subset_usesAll h)

end

end Names

/-! A part of a typed statement is typed. -/

mutual

theorem StmtTyping.part {Γ Δ : Context} {s t : Stmt Unit} {s' : Stmt Ty} (h : StmtTyping Γ s s' Δ)
    (ht : t ∈ s.parts) : ∃ Γ' t' Δ', StmtTyping Γ' t t' Δ' ∧ t' ∈ s'.parts := by
  cases h with
  | declare hnew hinit hfits =>
    rw [List.mem_singleton.mp ht]
    exact ⟨_, _, _, .declare hnew hinit hfits, List.mem_cons_self⟩
  | print hvalue hvalued =>
    rw [List.mem_singleton.mp ht]
    exact ⟨_, _, _, .print hvalue hvalued, List.mem_cons_self⟩
  | ifThen hcond hlogic hthen =>
    rcases List.mem_cons.mp ht with rfl | ht
    · exact ⟨_, _, _, .ifThen hcond hlogic hthen, List.mem_cons_self⟩
    obtain ⟨Γ', t', Δ', htyped, hmem⟩ := hthen.part ht
    exact ⟨Γ', t', Δ', htyped, List.mem_cons_of_mem _ hmem⟩
  | ifElse hcond hlogic hthen helse =>
    rcases List.mem_cons.mp ht with rfl | ht
    · exact ⟨_, _, _, .ifElse hcond hlogic hthen helse, List.mem_cons_self⟩
    rcases List.mem_append.mp ht with ht | ht
    · obtain ⟨Γ', t', Δ', htyped, hmem⟩ := hthen.part ht
      exact ⟨Γ', t', Δ', htyped, List.mem_cons_of_mem _ (List.mem_append_left _ hmem)⟩
    · obtain ⟨Γ', t', Δ', htyped, hmem⟩ := helse.part ht
      exact ⟨Γ', t', Δ', htyped, List.mem_cons_of_mem _ (List.mem_append_right _ hmem)⟩
  | block hbody =>
    rcases List.mem_cons.mp ht with rfl | ht
    · exact ⟨_, _, _, .block hbody, List.mem_cons_self⟩
    obtain ⟨Γ', t', Δ', htyped, hmem⟩ := hbody.part ht
    exact ⟨Γ', t', Δ', htyped, List.mem_cons_of_mem _ hmem⟩

theorem BodyTyping.part {Γ Δ : Context} {body : List (Stmt Unit)} {body' : List (Stmt Ty)}
    {t : Stmt Unit} (h : BodyTyping Γ body body' Δ) (ht : t ∈ Stmt.partsAll body) :
    ∃ Γ' t' Δ', StmtTyping Γ' t t' Δ' ∧ t' ∈ Stmt.partsAll body' := by
  cases h with
  | nil => cases ht
  | cons hs hbody =>
    rcases List.mem_append.mp ht with ht | ht
    · obtain ⟨Γ', t', Δ', htyped, hmem⟩ := hs.part ht
      exact ⟨Γ', t', Δ', htyped, List.mem_append_left _ hmem⟩
    · obtain ⟨Γ', t', Δ', htyped, hmem⟩ := hbody.part ht
      exact ⟨Γ', t', Δ', htyped, List.mem_append_right _ hmem⟩

end

/-! The lines of a statement that stands inside of another. -/

section Within
open Cpp (HasLine)

/-- Texts that are more than a brace. -/
def Cpp.Worded (text : String) : Prop :=
  text.toList.head? ∉ [some ' ', some '\x7b', some '\x7d']

/-- The code has all lines of a statement in it that are more than a brace. -/
def Cpp.Stmt.Within (r : Cpp.Stmt) (code : Nat → List String) : Prop :=
  ∀ text, Cpp.Worded text → (∀ depth, HasLine (r.lines depth) text) →
    ∀ depth, HasLine (code depth) text

theorem Cpp.Stmt.Within.mono {r : Cpp.Stmt} {code more : Nat → List String}
    (h : r.Within code) (hsub : ∀ depth, code depth ⊆ more depth) : r.Within more :=
  fun text htext hlines depth => (h text htext hlines depth).mono (hsub depth)

theorem Cpp.Stmt.Within.arm {r a : Cpp.Stmt} (h : r.Within fun depth => a.lines depth) :
    r.Within fun depth => Cpp.Stmt.linesAll (depth + 1) a.arm :=
  fun text htext hlines => Cpp.Stmt.hasLine_arm htext (h text htext hlines)

mutual

theorem Stmt.within_toCpp {s t : Stmt Ty} {q : Cpp.Stmt} (h : s.toCpp = .ok q) (ht : t ∈ s.parts) :
    ∃ r, t.toCpp = .ok r ∧ r.Within fun depth => q.lines depth := by
  have hself : t = s → ∃ r, t.toCpp = .ok r ∧ r.Within fun depth => q.lines depth := by
    rintro rfl
    exact ⟨q, h, fun text _ hlines => hlines⟩
  cases s with
  | declare ty name init span => exact hself (List.mem_singleton.mp ht)
  | print value span => exact hself (List.mem_singleton.mp ht)
  | ifThen condition thenArm span =>
    rcases List.mem_cons.mp ht with heq | ht
    · exact hself heq
    obtain ⟨a, ha, rfl⟩ := toCpp_ifThen_iff.mp h
    obtain ⟨r, hr, hwithin⟩ := within_toCpp ha ht
    refine ⟨r, hr, hwithin.arm.mono fun depth l hl => ?_⟩
    simp [Cpp.Stmt.lines, hl]
  | ifElse condition thenArm elseArm span =>
    rcases List.mem_cons.mp ht with heq | ht
    · exact hself heq
    obtain ⟨a, ha, b, hb, rfl⟩ := toCpp_ifElse_iff.mp h
    rcases List.mem_append.mp ht with ht | ht
    · obtain ⟨r, hr, hwithin⟩ := within_toCpp ha ht
      refine ⟨r, hr, hwithin.arm.mono fun depth l hl => ?_⟩
      simp [Cpp.Stmt.lines, hl]
    · obtain ⟨r, hr, hwithin⟩ := within_toCpp hb ht
      refine ⟨r, hr, hwithin.arm.mono fun depth l hl => ?_⟩
      simp [Cpp.Stmt.lines, hl]
  | block body span =>
    rcases List.mem_cons.mp ht with heq | ht
    · exact hself heq
    obtain ⟨qs, hqs, rfl⟩ := toCpp_block_iff.mp h
    obtain ⟨r, hr, hwithin⟩ := within_allToCpp hqs ht
    refine ⟨r, hr, fun text htext hlines depth => (hwithin text htext hlines (depth + 1)).mono ?_⟩
    intro l hl
    simp [Cpp.Stmt.lines, hl]

theorem Stmt.within_allToCpp {body : List (Stmt Ty)} {t : Stmt Ty} {qs : List Cpp.Stmt}
    (h : allToCpp body = .ok qs) (ht : t ∈ partsAll body) :
    ∃ r, t.toCpp = .ok r ∧ r.Within fun depth => Cpp.Stmt.linesAll depth qs := by
  cases body with
  | nil => cases ht
  | cons s body =>
    obtain ⟨q, hq, rest, hrest, rfl⟩ := allToCpp_cons_iff.mp h
    rcases List.mem_append.mp ht with ht | ht
    · obtain ⟨r, hr, hwithin⟩ := within_toCpp hq ht
      exact ⟨r, hr, hwithin.mono fun _ => List.subset_append_left _ _⟩
    · obtain ⟨r, hr, hwithin⟩ := within_allToCpp hrest ht
      exact ⟨r, hr, hwithin.mono fun _ => List.subset_append_right _ _⟩

end

end Within

end HumanScript
