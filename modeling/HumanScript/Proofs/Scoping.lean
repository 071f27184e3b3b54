import HumanScript.Program.Reader
import HumanScript.Proofs.Events
import HumanScript.Proofs.Lowering
import Mathlib.Data.List.Count

/-! Scopes of names in C++ code. Checking knows one scope for a whole program, and C++ one for each
pair of braces, so code is in scope exactly if no variable is used outside the arm or block that
declares it. -/
namespace HumanScript

namespace Cpp

/-- The variables in an expression, each as often as it stands there. -/
def Expr.names : Expr → List String
  | int _ | double _ | string _ | bool _ => []
  | name x => [x]
  | stringOf value | toString value => value.names
  | choice condition whenTrue whenFalse =>
    condition.names ++ whenTrue.names ++ whenFalse.names
  | binary _ lhs rhs => lhs.names ++ rhs.names

mutual

/-- A variable may be used only after its own initializer. -/
def Stmt.events : Stmt → List Event
  | .declare _ name init => init.names.map .use ++ [.declare name]
  | .print value => value.names.map .use
  | .ifThen condition thenArm =>
    condition.names.map .use ++ Event.braced (Stmt.eventsAll thenArm)
  | .ifElse condition thenArm elseArm =>
    condition.names.map .use ++ Event.braced (Stmt.eventsAll thenArm) ++
      Event.braced (Stmt.eventsAll elseArm)
  | .block body => Event.braced (Stmt.eventsAll body)

def Stmt.eventsAll : List Stmt → List Event
  | [] => []
  | s :: body => s.events ++ Stmt.eventsAll body

end

/-- The events of `main`, in its own braces. -/
def Program.events (p : Program) : List Event := Event.braced (Stmt.eventsAll p.body)

mutual

theorem Stmt.balanced_events (q : Stmt) : Event.Balanced q.events := by
  cases q with
  | declare ty name init => exact (Event.Balanced.uses _).append (.of_not_mem (by simp) (by simp))
  | print value => exact .uses _
  | ifThen condition thenArm =>
    exact (Event.Balanced.uses _).append (Stmt.balanced_eventsAll thenArm).braced
  | ifElse condition thenArm elseArm =>
    exact ((Event.Balanced.uses _).append (Stmt.balanced_eventsAll thenArm).braced).append
      (Stmt.balanced_eventsAll elseArm).braced
  | block body => exact (Stmt.balanced_eventsAll body).braced

theorem Stmt.balanced_eventsAll (qs : List Stmt) : Event.Balanced (Stmt.eventsAll qs) := by
  cases qs with
  | nil => exact .of_not_mem (by simp [Stmt.eventsAll]) (by simp [Stmt.eventsAll])
  | cons q qs => exact q.balanced_events.append (Stmt.balanced_eventsAll qs)

end

/-- The braces of an arm are those of its block, or stand around its statement. -/
theorem Stmt.braced_arm (q : Stmt) :
    Event.braced (Stmt.eventsAll q.arm) = q.events ∨
      Event.braced (Stmt.eventsAll q.arm) = Event.braced q.events := by
  cases q with
  | block body => exact .inl rfl
  | declare | print | ifThen | ifElse => exact .inr (by simp [arm, eventsAll])

end Cpp

section Source
variable {α : Type}

def Expr.names : Expr α → List String
  | literal _ _ _ => []
  | name ident _ _ => [ident.name]
  | binary _ lhs rhs _ _ => lhs.names ++ rhs.names

mutual

/-- The variables a statement uses, each as often as it does. -/
def Stmt.uses : Stmt α → List String
  | .declare _ _ init _ => init.names
  | .print value _ => value.names
  | .ifThen condition thenArm _ => condition.names ++ thenArm.uses
  | .ifElse condition thenArm elseArm _ => condition.names ++ thenArm.uses ++ elseArm.uses
  | .block body _ => Stmt.usesAll body

def Stmt.usesAll : List (Stmt α) → List String
  | [] => []
  | s :: body => s.uses ++ Stmt.usesAll body

end

mutual

/-- The arms and blocks in a statement, at any depth. -/
def Stmt.bodies : Stmt α → List (List (Stmt α))
  | .declare _ _ _ _ | .print _ _ => []
  | .ifThen _ thenArm _ => [thenArm] :: thenArm.bodies
  | .ifElse _ thenArm elseArm _ => [thenArm] :: thenArm.bodies ++ [elseArm] :: elseArm.bodies
  | .block body _ => body :: Stmt.bodiesAll body

def Stmt.bodiesAll : List (Stmt α) → List (List (Stmt α))
  | [] => []
  | s :: body => s.bodies ++ Stmt.bodiesAll body

end

def Stmt.declared? : Stmt α → Option String
  | declare _ name _ _ => some name.name
  | _ => none

/-- No variable is used outside the arm or block that declares it: all its uses are in there. -/
def Program.Enclosed (p : Program α) : Prop :=
  ∀ body ∈ Stmt.bodiesAll p.body, ∀ x ∈ body.filterMap Stmt.declared?,
    (Stmt.usesAll body).count x = (Stmt.usesAll p.body).count x

instance (p : Program α) : Decidable p.Enclosed :=
  inferInstanceAs (Decidable (∀ body ∈ Stmt.bodiesAll p.body,
    ∀ x ∈ body.filterMap Stmt.declared?, (Stmt.usesAll body).count x = _))

end Source

@[simp] theorem Event.count_use_braced (es : List Event) (x : String) :
    (braced es).count (.use x) = es.count (.use x) := by
  simp [braced, List.count_append]

@[simp] theorem Event.count_use_map (names : List String) (x : String) :
    (names.map Event.use).count (.use x) = names.count x :=
  List.count_map_of_injective names Event.use (fun _ _ h => Event.use.inj h) x

theorem Cpp.Stmt.count_use_arm (q : Cpp.Stmt) (x : String) :
    (Cpp.Stmt.eventsAll q.arm).count (.use x) = q.events.count (.use x) := by
  rw [← Event.count_use_braced]
  rcases q.braced_arm with h | h
  · rw [h]
  · rw [h, Event.count_use_braced]

@[simp] theorem Ty.names_stringify (ty : Ty) (code : Cpp.Expr) :
    (ty.stringify code).names = code.names := by
  cases ty <;> simp [stringify, Cpp.Expr.names]

@[simp] theorem Expr.names_toCpp (e : Expr Ty) : e.toCpp.names = e.names := by
  induction e with
  | literal value span ty => cases value <;> rfl
  | name ident span ty => rfl
  | binary op lhs rhs span ty ihl ihr =>
    simp only [toCpp, names, Cpp.Expr.names]
    congr 1
    · split <;> split <;> simp [Cpp.Expr.names, ihl]
    · split <;> simp [ihr]

theorem Stmt.names_print (value : Expr Ty) :
    (if value.info.isValued then value.toCpp else Cpp.Expr.toString value.toCpp).names =
      value.names := by
  split <;> simp [Cpp.Expr.names]

mutual

theorem Stmt.count_events {s : Stmt Ty} {q : Cpp.Stmt} (h : s.toCpp = .ok q) (x : String) :
    q.events.count (.use x) = s.uses.count x := by
  cases s with
  | declare ty name init span =>
    obtain ⟨t, _, rfl⟩ := toCpp_declare_iff.mp h
    simp [Cpp.Stmt.events, uses, List.count_append]
  | print value span =>
    cases h
    simp [Cpp.Stmt.events, uses, names_print]
  | ifThen condition thenArm span =>
    obtain ⟨a, ha, rfl⟩ := toCpp_ifThen_iff.mp h
    simp [Cpp.Stmt.events, uses, List.count_append, a.count_use_arm, count_events ha]
  | ifElse condition thenArm elseArm span =>
    obtain ⟨a, ha, b, hb, rfl⟩ := toCpp_ifElse_iff.mp h
    simp [Cpp.Stmt.events, uses, List.count_append, a.count_use_arm, b.count_use_arm,
      count_events ha, count_events hb]
  | block body span =>
    obtain ⟨qs, hqs, rfl⟩ := toCpp_block_iff.mp h
    simp [Cpp.Stmt.events, uses, count_eventsAll hqs]

theorem Stmt.count_eventsAll {body : List (Stmt Ty)} {qs : List Cpp.Stmt}
    (h : allToCpp body = .ok qs) (x : String) :
    (Cpp.Stmt.eventsAll qs).count (.use x) = (usesAll body).count x := by
  cases body with
  | nil =>
    cases h
    rfl
  | cons s body =>
    obtain ⟨q, hq, rest, hrest, rfl⟩ := allToCpp_cons_iff.mp h
    simp [Cpp.Stmt.eventsAll, usesAll, List.count_append, count_events hq, count_eventsAll hrest]

end

/-- After the declaration of a variable come the other statements of the same body. -/
theorem Stmt.exists_balanced_of_declared {body : List (Stmt Ty)} {qs : List Cpp.Stmt} {x : String}
    (h : allToCpp body = .ok qs) (hx : x ∈ body.filterMap declared?) :
    ∃ front between, Cpp.Stmt.eventsAll qs = front ++ .declare x :: between ∧
      Event.Balanced between := by
  induction body generalizing qs with
  | nil => cases hx
  | cons s body ih =>
    obtain ⟨q, hq, rest, hrest, rfl⟩ := allToCpp_cons_iff.mp h
    obtain ⟨t, ht, hdeclared⟩ := List.mem_filterMap.mp hx
    rcases List.mem_cons.mp ht with rfl | ht
    · cases t with
      | declare ty name init span =>
        cases hdeclared
        obtain ⟨c, _, rfl⟩ := toCpp_declare_iff.mp hq
        refine ⟨init.toCpp.names.map .use, _, ?_, Cpp.Stmt.balanced_eventsAll rest⟩
        simp [Cpp.Stmt.eventsAll, Cpp.Stmt.events]
      | print | ifThen | ifElse | block => cases hdeclared
    · obtain ⟨front, between, heq, hbetween⟩ :=
        ih hrest (List.mem_filterMap.mpr ⟨t, ht, hdeclared⟩)
      exact ⟨q.events ++ front, between, by simp [Cpp.Stmt.eventsAll, heq], hbetween⟩

theorem Stmt.encloses_braced {body : List (Stmt Ty)} {qs : List Cpp.Stmt} {x : String}
    (h : allToCpp body = .ok qs) (hx : x ∈ body.filterMap declared?) :
    Event.Encloses (Event.braced (Cpp.Stmt.eventsAll qs)) x ((usesAll body).count x) := by
  obtain ⟨front, between, heq, hbetween⟩ := exists_balanced_of_declared h hx
  refine ⟨[], front, between, [], by simp [Event.braced, heq], hbetween, ?_⟩
  rw [← count_eventsAll h, heq]
  simp [List.count_append]

theorem Stmt.encloses_arm {arm : Stmt Ty} {q : Cpp.Stmt} {body : List (Stmt Ty)} {x : String}
    (h : arm.toCpp = .ok q)
    (ih : body ∈ arm.bodies → Event.Encloses q.events x ((usesAll body).count x))
    (hbody : body ∈ [arm] :: arm.bodies) (hx : x ∈ body.filterMap declared?) :
    Event.Encloses (Event.braced (Cpp.Stmt.eventsAll q.arm)) x ((usesAll body).count x) := by
  rcases List.mem_cons.mp hbody with rfl | hbody
  · cases arm with
    | declare ty name init span =>
      obtain ⟨t, ht, rfl⟩ := toCpp_declare_iff.mp h
      exact encloses_braced (allToCpp_cons_iff.mpr ⟨_, h, [], rfl, rfl⟩) hx
    | print | ifThen | ifElse | block => simp [declared?] at hx
  · rcases q.braced_arm with hq | hq
    · rw [hq]
      exact ih hbody
    · rw [hq]
      exact (ih hbody).braced

mutual

theorem Stmt.encloses_events {s : Stmt Ty} {q : Cpp.Stmt} {body : List (Stmt Ty)} {x : String}
    (h : s.toCpp = .ok q) (hbody : body ∈ s.bodies) (hx : x ∈ body.filterMap declared?) :
    Event.Encloses q.events x ((usesAll body).count x) := by
  cases s with
  | declare | print => cases hbody
  | ifThen condition thenArm span =>
    obtain ⟨a, ha, rfl⟩ := toCpp_ifThen_iff.mp h
    have harm := encloses_arm ha (fun hb => encloses_events ha hb hx) hbody hx
    exact harm.append_left _
  | ifElse condition thenArm elseArm span =>
    obtain ⟨a, ha, b, hb, rfl⟩ := toCpp_ifElse_iff.mp h
    rcases List.mem_append.mp hbody with hbody | hbody
    · have harm := encloses_arm ha (fun hb => encloses_events ha hb hx) hbody hx
      exact (harm.append_left _).append_right _
    · have harm := encloses_arm hb (fun h => encloses_events hb h hx) hbody hx
      exact harm.append_left _
  | block body' span =>
    obtain ⟨qs, hqs, rfl⟩ := toCpp_block_iff.mp h
    rcases List.mem_cons.mp hbody with rfl | hbody
    · exact encloses_braced hqs hx
    · exact (encloses_eventsAll hqs hbody hx).braced

theorem Stmt.encloses_eventsAll {all : List (Stmt Ty)} {qs : List Cpp.Stmt}
    {body : List (Stmt Ty)} {x : String} (h : allToCpp all = .ok qs) (hbody : body ∈ bodiesAll all)
    (hx : x ∈ body.filterMap declared?) :
    Event.Encloses (Cpp.Stmt.eventsAll qs) x ((usesAll body).count x) := by
  cases all with
  | nil => cases hbody
  | cons s all =>
    obtain ⟨q, hq, rest, hrest, rfl⟩ := allToCpp_cons_iff.mp h
    rcases List.mem_append.mp hbody with hbody | hbody
    · exact (encloses_events hq hbody hx).append_right _
    · exact (encloses_eventsAll hrest hbody hx).append_left _

end

theorem Cpp.Stmt.declare_mem_arm {q : Cpp.Stmt} {x : String} :
    .declare x ∈ Event.braced (Cpp.Stmt.eventsAll q.arm) ↔ .declare x ∈ q.events := by
  rcases q.braced_arm with h | h
  · rw [h]
  · rw [h]
    simp [Event.braced]

mutual

theorem Stmt.exists_body_of_declare {s : Stmt Ty} {q : Cpp.Stmt} {x : String}
    (h : s.toCpp = .ok q) (hx : .declare x ∈ q.events) :
    ∃ body ∈ [s] :: s.bodies, x ∈ body.filterMap declared? := by
  cases s with
  | declare ty name init span =>
    obtain ⟨t, _, rfl⟩ := toCpp_declare_iff.mp h
    have hname : x = name.name := by simpa [Cpp.Stmt.events] using hx
    exact ⟨_, List.mem_cons_self, by simp [declared?, hname]⟩
  | print value span =>
    cases h
    simp [Cpp.Stmt.events] at hx
  | ifThen condition thenArm span =>
    obtain ⟨a, ha, rfl⟩ := toCpp_ifThen_iff.mp h
    have hx' : .declare x ∈ a.events := by
      simpa [Cpp.Stmt.events, Cpp.Stmt.declare_mem_arm] using hx
    obtain ⟨body, hbody, hdeclared⟩ := exists_body_of_declare ha hx'
    exact ⟨body, List.mem_cons_of_mem _ hbody, hdeclared⟩
  | ifElse condition thenArm elseArm span =>
    obtain ⟨a, ha, b, hb, rfl⟩ := toCpp_ifElse_iff.mp h
    have hx' : .declare x ∈ a.events ∨ .declare x ∈ b.events := by
      simpa [Cpp.Stmt.events, Cpp.Stmt.declare_mem_arm] using hx
    rcases hx' with hx' | hx'
    · obtain ⟨body, hbody, hdeclared⟩ := exists_body_of_declare ha hx'
      exact ⟨body, List.mem_cons_of_mem _ (List.mem_append_left _ hbody), hdeclared⟩
    · obtain ⟨body, hbody, hdeclared⟩ := exists_body_of_declare hb hx'
      exact ⟨body, List.mem_cons_of_mem _ (List.mem_append_right _ hbody), hdeclared⟩
  | block body span =>
    obtain ⟨qs, hqs, rfl⟩ := toCpp_block_iff.mp h
    have hx' : .declare x ∈ Cpp.Stmt.eventsAll qs := by
      simpa [Cpp.Stmt.events, Event.braced] using hx
    obtain ⟨body, hbody, hdeclared⟩ := exists_body_of_declareAll hqs hx'
    exact ⟨body, List.mem_cons_of_mem _ hbody, hdeclared⟩

theorem Stmt.exists_body_of_declareAll {all : List (Stmt Ty)} {qs : List Cpp.Stmt} {x : String}
    (h : allToCpp all = .ok qs) (hx : .declare x ∈ Cpp.Stmt.eventsAll qs) :
    ∃ body ∈ all :: bodiesAll all, x ∈ body.filterMap declared? := by
  cases all with
  | nil =>
    cases h
    cases hx
  | cons s all =>
    obtain ⟨q, hq, rest, hrest, rfl⟩ := allToCpp_cons_iff.mp h
    rcases List.mem_append.mp hx with hx | hx
    · obtain ⟨body, hbody, hdeclared⟩ := exists_body_of_declare hq hx
      rcases List.mem_cons.mp hbody with rfl | hbody
      · refine ⟨_, List.mem_cons_self, ?_⟩
        rw [← List.singleton_append, List.filterMap_append]
        exact List.mem_append_left _ hdeclared
      · exact ⟨body, List.mem_cons_of_mem _ (List.mem_append_left _ hbody), hdeclared⟩
    · obtain ⟨body, hbody, hdeclared⟩ := exists_body_of_declareAll hrest hx
      rcases List.mem_cons.mp hbody with rfl | hbody
      · refine ⟨_, List.mem_cons_self, ?_⟩
        rw [← List.singleton_append, List.filterMap_append]
        exact List.mem_append_right _ hdeclared
      · exact ⟨body, List.mem_cons_of_mem _ (List.mem_append_right _ hbody), hdeclared⟩

end

theorem ExprTyping.known {Γ : Context} {e : Expr Unit} {e' : Expr Ty} (h : ExprTyping Γ e e') :
    ∀ x ∈ e'.names, Γ x ≠ none := by
  induction h with
  | int | float | string | bool => simp [Expr.names]
  | name hname => simp [Expr.names, hname]
  | binary _ _ _ ihl ihr =>
    intro x hx
    rcases List.mem_append.mp hx with hx | hx
    · exact ihl x hx
    · exact ihr x hx

theorem ExprTyping.flat {Γ : Context} {e : Expr Unit} {e' : Expr Ty} (h : ExprTyping Γ e e') :
    Event.Flat Γ (e'.toCpp.names.map .use) Γ := by
  rw [Expr.names_toCpp]
  exact .uses h.known

theorem Event.Flat.arm {Γ Δ : Context} {q : Cpp.Stmt} (h : Flat Γ q.events Δ) :
    Flat Γ (Event.braced (Cpp.Stmt.eventsAll q.arm)) Δ := by
  rcases q.braced_arm with hq | hq
  · rw [hq]
    exact h
  · rw [hq]
    exact h.braced

mutual

theorem StmtTyping.flat {Γ Δ : Context} {s : Stmt Unit} {s' : Stmt Ty} {q : Cpp.Stmt}
    (h : StmtTyping Γ s s' Δ) (hq : s'.toCpp = .ok q) : Event.Flat Γ q.events Δ := by
  cases h with
  | declare hnew hinit _ =>
    obtain ⟨t, _, rfl⟩ := Stmt.toCpp_declare_iff.mp hq
    exact hinit.flat.append (.declare hnew .nil)
  | print hvalue _ =>
    cases hq
    rw [Cpp.Stmt.events, Stmt.names_print]
    exact .uses hvalue.known
  | ifThen hcond _ hthen =>
    obtain ⟨a, ha, rfl⟩ := Stmt.toCpp_ifThen_iff.mp hq
    exact hcond.flat.append (hthen.flat ha).arm
  | ifElse hcond _ hthen helse =>
    obtain ⟨a, ha, b, hb, rfl⟩ := Stmt.toCpp_ifElse_iff.mp hq
    exact (hcond.flat.append (hthen.flat ha).arm).append (helse.flat hb).arm
  | block hbody =>
    obtain ⟨qs, hqs, rfl⟩ := Stmt.toCpp_block_iff.mp hq
    exact (hbody.flat hqs).braced

theorem BodyTyping.flat {Γ Δ : Context} {body : List (Stmt Unit)} {body' : List (Stmt Ty)}
    {qs : List Cpp.Stmt} (h : BodyTyping Γ body body' Δ) (hqs : Stmt.allToCpp body' = .ok qs) :
    Event.Flat Γ (Cpp.Stmt.eventsAll qs) Δ := by
  cases h with
  | nil =>
    cases hqs
    exact .nil
  | cons hs hbody =>
    obtain ⟨q, hq, rest, hrest, rfl⟩ := Stmt.allToCpp_cons_iff.mp hqs
    exact (hs.flat hq).append (hbody.flat hrest)

end

theorem Expr.names_untyped (e : Expr Ty) : e.untyped.names = e.names := by
  induction e with
  | literal | name => rfl
  | binary op lhs rhs span ty ihl ihr =>
    change lhs.untyped.names ++ rhs.untyped.names = lhs.names ++ rhs.names
    rw [ihl, ihr]

theorem Stmt.declared?_untyped (s : Stmt Ty) : s.untyped.declared? = s.declared? := by
  cases s <;> rfl

mutual

theorem Stmt.uses_untyped (s : Stmt Ty) : s.untyped.uses = s.uses := by
  cases s with
  | declare ty name init span => exact init.names_untyped
  | print value span => exact value.names_untyped
  | ifThen condition thenArm span =>
    change condition.untyped.names ++ thenArm.untyped.uses = condition.names ++ thenArm.uses
    rw [condition.names_untyped, thenArm.uses_untyped]
  | ifElse condition thenArm elseArm span =>
    change condition.untyped.names ++ thenArm.untyped.uses ++ elseArm.untyped.uses =
      condition.names ++ thenArm.uses ++ elseArm.uses
    rw [condition.names_untyped, thenArm.uses_untyped, elseArm.uses_untyped]
  | block body span =>
    rw [untyped_block, uses, uses, usesAll_untyped body]

theorem Stmt.usesAll_untyped (body : List (Stmt Ty)) :
    usesAll (body.map untyped) = usesAll body := by
  cases body with
  | nil => rfl
  | cons s body => rw [List.map_cons, usesAll, usesAll, s.uses_untyped, usesAll_untyped body]

end

mutual

theorem Stmt.bodies_untyped (s : Stmt Ty) : s.untyped.bodies = s.bodies.map (List.map untyped) := by
  cases s with
  | declare | print => rfl
  | ifThen condition thenArm span =>
    change [thenArm.untyped] :: thenArm.untyped.bodies = _
    rw [thenArm.bodies_untyped]
    rfl
  | ifElse condition thenArm elseArm span =>
    change [thenArm.untyped] :: thenArm.untyped.bodies ++
      [elseArm.untyped] :: elseArm.untyped.bodies = _
    rw [thenArm.bodies_untyped, elseArm.bodies_untyped]
    simp [bodies]
  | block body span =>
    rw [untyped_block, bodies, bodies, bodiesAll_untyped body]
    rfl

theorem Stmt.bodiesAll_untyped (body : List (Stmt Ty)) :
    bodiesAll (body.map untyped) = (bodiesAll body).map (List.map untyped) := by
  cases body with
  | nil => rfl
  | cons s body =>
    rw [List.map_cons, bodiesAll, bodiesAll, s.bodies_untyped, bodiesAll_untyped body,
      List.map_append]

end

theorem Program.enclosed_untyped (p : Program Ty) : p.untyped.Enclosed ↔ p.Enclosed := by
  have hbody : p.untyped.body = p.body.map Stmt.untyped := rfl
  have hdeclared : (Stmt.declared? ∘ Stmt.untyped : Stmt Ty → Option String) = Stmt.declared? :=
    funext Stmt.declared?_untyped
  unfold Enclosed
  rw [hbody, Stmt.bodiesAll_untyped, Stmt.usesAll_untyped]
  simp only [List.forall_mem_map, List.filterMap_map, Stmt.usesAll_untyped, hdeclared]

/-- The code of a checked program is in scope exactly if the program uses no variable outside the
arm or block that declares it. -/
theorem Program.toCpp_inScope_iff {p : Program Unit} {c : Checked (Program Ty)}
    (h : p.check = .ok c) :
    ∃ q, c.value.toCpp = .ok q ∧ (Event.InScope q.events ↔ p.Enclosed) := by
  obtain ⟨Δ, qs, htyping, hqs, hq⟩ := exists_toCpp_of_check h
  refine ⟨_, hq, ?_⟩
  have huntyped : c.value.untyped = p := (check_iff.mp ⟨c, h, rfl⟩).untyped
  rw [← huntyped, enclosed_untyped]
  change Event.InScope (Event.braced (Cpp.Stmt.eventsAll qs)) ↔ _
  have hflat := (htyping.flat hqs).braced
  have hcount (x : String) : (Event.braced (Cpp.Stmt.eventsAll qs)).count (.use x) =
      (Stmt.usesAll c.value.body).count x := by
    rw [Event.count_use_braced, Stmt.count_eventsAll hqs]
  constructor
  · intro hscope body hbody x hx
    rw [← hcount]
    exact (hflat.nameInScope_iff (Stmt.encloses_eventsAll hqs hbody hx).braced).mp (hscope x)
  · intro henclosed x
    -- The name is declared in `main` itself, in an arm or block, or nowhere and then never used.
    by_cases hx : .declare x ∈ Cpp.Stmt.eventsAll qs
    · obtain ⟨body, hbody, hdeclared⟩ := Stmt.exists_body_of_declareAll hqs hx
      rcases List.mem_cons.mp hbody with rfl | hbody
      · exact (hflat.nameInScope_iff (Stmt.encloses_braced hqs hdeclared)).mpr (hcount x).symm
      · refine (hflat.nameInScope_iff (Stmt.encloses_eventsAll hqs hbody hdeclared).braced).mpr ?_
        rw [henclosed body hbody x hdeclared, hcount]
    · exact hflat.nameInScope_of_not_mem (by simpa [Event.braced] using hx)

/-- A variable declared in an arm may be used after it, but its code is then out of scope. -/
theorem Program.toCpp_not_inScope_after_arm :
    ∃ p c q, (Lexed.ofSource "if (true) number a := 1; says a;").program = .ok p ∧
      p.check = .ok c ∧ c.value.toCpp = .ok q ∧ ¬ Event.InScope q.events := by
  have hrun : ((Lexed.ofSource "if (true) number a := 1; says a;").program.toOption.bind
      fun p => p.check.toOption.map fun _ => decide p.Enclosed) = some false := by
    decide +kernel
  simp only [Option.bind_eq_some_iff, Option.map_eq_some_iff, Except.toOption_eq_some_iff,
    decide_eq_false_iff_not] at hrun
  obtain ⟨p, hp, c, hc, henclosed⟩ := hrun
  obtain ⟨q, hq, hiff⟩ := toCpp_inScope_iff hc
  exact ⟨p, c, q, hp, hc, hq, fun hscope => henclosed (hiff.mp hscope)⟩

end HumanScript
