import HumanScript.Proofs.Grammar

/-! The two forms of the grammar agree: a row of tokens spells a tree exactly if its kinds are
derived, and then it also spells one in which every `else` belongs to the nearest `if`. -/
namespace HumanScript

/-- A token of a literal has a value of its kind. -/
def Token.ValueFits (t : Token) : Prop :=
  t.kind ∈ Grammar.literalKinds → ∃ v, t.value = some v ∧ t.kind = v.kind

theorem Literal.kind_mem_literalKinds (v : Literal) : v.kind ∈ Grammar.literalKinds := by
  rcases v with _ | _ | _ | _ | _ <;> simp [kind, Grammar.literalKinds]

namespace Grammar
open Token (Kind)

/-- One or more rows with a property, with a token of the given kind before each but the first. -/
def Separated (k : Kind) (P : List Kind → Prop) (ks : List Kind) : Prop :=
  ∃ (first : List Kind) (more : List (List Kind)), P first ∧ (∀ s ∈ more, P s) ∧
    ks = first ++ more.flatMap (k :: ·)

theorem Separated.single {k : Kind} {P : List Kind → Prop} {ks : List Kind} (h : P ks) :
    Separated k P ks := ⟨ks, [], h, by simp, by simp⟩

theorem Separated.snoc {k : Kind} {P : List Kind → Prop} {ls rs : List Kind}
    (hl : Separated k P ls) (hr : P rs) : Separated k P (ls ++ k :: rs) := by
  obtain ⟨first, more, hfirst, hmore, rfl⟩ := hl
  refine ⟨first, more ++ [rs], hfirst, ?_, by simp⟩
  intro s hs
  rcases List.mem_append.mp hs with hs | hs
  · exact hmore s hs
  · rw [List.mem_singleton.mp hs]
    exact hr

theorem isExpr_comparison_iff {ks : List Kind} :
    IsExpr .comparison ks ↔ Separated .questionEq (IsExpr .sum) ks := by
  constructor
  · intro h
    cases h with
    | comparison hfirst hmore => exact ⟨_, _, hfirst, hmore, rfl⟩
  · rintro ⟨first, more, hfirst, hmore, rfl⟩
    exact .comparison hfirst hmore

theorem isExpr_sum_iff {ks : List Kind} :
    IsExpr .sum ks ↔ Separated .plus (IsExpr .factor) ks := by
  constructor
  · intro h
    cases h with
    | sum hfirst hmore => exact ⟨_, _, hfirst, hmore, rfl⟩
  · rintro ⟨first, more, hfirst, hmore, rfl⟩
    exact .sum hfirst hmore

theorem SpellsExpr.isExpr {layer : Layer} {ts : List Token} {e : Expr Unit}
    (h : SpellsExpr layer ts e) : IsExpr layer (ts.map Token.kind) := by
  induction h with
  | ofSum _ ih => exact isExpr_comparison_iff.mpr (.single ih)
  | compare _ ht _ ihl ihr =>
    rw [List.map_append, List.map_cons, ht]
    exact isExpr_comparison_iff.mpr ((isExpr_comparison_iff.mp ihl).snoc ihr)
  | ofFactor _ ih => exact isExpr_sum_iff.mpr (.single ih)
  | add _ ht _ ihl ihr =>
    rw [List.map_append, List.map_cons, ht]
    exact isExpr_sum_iff.mpr ((isExpr_sum_iff.mp ihl).snoc ihr)
  | @literal t v hk _ =>
    apply IsExpr.literal
    rw [hk]
    exact v.kind_mem_literalKinds
  | name ht =>
    rw [List.map_singleton, ht]
    exact .name
  | group ht _ hu ih =>
    rw [List.map_cons, List.map_append, List.map_singleton, ht, hu]
    exact .group ih

theorem mem_typeKinds_of_ty? {k : Kind} {ty : Ty} (h : k.ty? = some ty) : k ∈ typeKinds := by
  cases k <;> simp_all [Kind.ty?, typeKinds]

theorem exists_ty?_of_mem {k : Kind} (h : k ∈ typeKinds) : ∃ ty, k.ty? = some ty := by
  cases k <;> simp_all [Kind.ty?, typeKinds]

theorem SpellsStmt.isStmt {ts : List Token} {s : Stmt Unit} (h : SpellsStmt ts s) :
    IsStmt (ts.map Token.kind) := by
  induction h with
  | declare ht hn ha hinit hu =>
    simp only [List.map_cons, List.map_append, List.map_nil, hn, ha, hu]
    exact .declare (mem_typeKinds_of_ty? ht) hinit.isExpr
  | print ht hvalue hu =>
    simp only [List.map_cons, List.map_append, List.map_nil, ht, hu]
    exact .print hvalue.isExpr
  | ifThen ht ho hcond hc _ ih =>
    simp only [List.map_cons, List.map_append, ht, ho, hc]
    exact .ifThen hcond.isExpr ih
  | ifElse ht ho hcond hc _ he _ iha ihb =>
    simp only [List.map_cons, List.map_append, ht, ho, hc, he]
    exact .ifElse hcond.isExpr iha ihb
  | block ht _ hu ih =>
    simp only [List.map_cons, List.map_append, List.map_nil, List.map_flatten, ht, hu]
    apply IsStmt.block
    intro ks hks
    obtain ⟨us, hus, rfl⟩ := List.mem_map.mp hks
    obtain ⟨p, hp, rfl⟩ := List.mem_map.mp hus
    exact ih p hp

theorem SpellsImport.isImport {ts : List Token} {i : Import} (h : SpellsImport ts i) :
    IsImport (ts.map Token.kind) := by
  cases h with
  | use ht ho hne hpath hc hu =>
    simp only [List.map_cons, List.map_append, List.map_nil, ht, ho, hc, hu]
    refine .use (by simpa using hne) ?_
    intro k hk
    obtain ⟨p, hp, rfl⟩ := List.mem_map.mp hk
    exact hpath p hp

theorem SpellsProgram.isProgram {ts : List Token} {p : Program Unit} (h : SpellsProgram ts p) :
    IsProgram (ts.map Token.kind) := by
  cases h with
  | mk himports hbody =>
    simp only [List.map_append, List.map_flatten]
    refine .mk ?_ ?_
    · intro ks hks
      obtain ⟨us, hus, rfl⟩ := List.mem_map.mp hks
      obtain ⟨p, hp, rfl⟩ := List.mem_map.mp hus
      exact (himports p hp).isImport
    · intro ks hks
      obtain ⟨us, hus, rfl⟩ := List.mem_map.mp hks
      obtain ⟨p, hp, rfl⟩ := List.mem_map.mp hus
      exact (hbody p hp).isStmt

/-- Tokens whose kinds are derived operand by operand spell an operation, one operand at a time. -/
private theorem exists_of_flatMap {P Q : List Token → Expr Unit → Prop} {k : Kind}
    (step : ∀ {ls rs t l r}, P ls l → t.kind = k → Q rs r → ∃ e, P (ls ++ t :: rs) e)
    {more : List (List Kind)} {ls ts : List Token} {l : Expr Unit} (hl : P ls l)
    (hmore : ∀ s ∈ more, ∀ us : List Token, us.map Token.kind = s →
      (∀ t ∈ us, t.ValueFits) → ∃ e, Q us e)
    (hts : ts.map Token.kind = more.flatMap (k :: ·)) (hfit : ∀ t ∈ ts, t.ValueFits) :
    ∃ e, P (ls ++ ts) e := by
  induction more generalizing ls ts l with
  | nil =>
    rw [List.flatMap_nil, List.map_eq_nil_iff] at hts
    exact ⟨l, by rwa [hts, List.append_nil]⟩
  | cons s more ih =>
    rw [List.flatMap_cons, List.cons_append] at hts
    obtain ⟨t, us, rfl, ht, hus⟩ := List.map_eq_cons_iff.mp hts
    obtain ⟨rs, vs, rfl, hrs, hvs⟩ := List.map_eq_append_iff.mp hus
    simp only [List.mem_cons, List.mem_append] at hfit
    obtain ⟨r, hr⟩ := hmore s (by simp) rs hrs fun u hu => hfit u (.inr (.inl hu))
    obtain ⟨e, he⟩ := step hl ht hr
    have hrest := ih he (fun s hs => hmore s (by simp [hs])) hvs fun u hu => hfit u (.inr (.inr hu))
    simpa using hrest

theorem exists_spellsExpr {layer : Layer} {ks : List Kind} (h : IsExpr layer ks) {ts : List Token}
    (hts : ts.map Token.kind = ks) (hfit : ∀ t ∈ ts, t.ValueFits) :
    ∃ e, SpellsExpr layer ts e := by
  induction h generalizing ts with
  | comparison _ _ ihfirst ihmore =>
    obtain ⟨ls, rs, rfl, hls, hrs⟩ := List.map_eq_append_iff.mp hts
    simp only [List.mem_append] at hfit
    obtain ⟨l, hl⟩ := ihfirst hls fun t ht => hfit t (.inl ht)
    exact exists_of_flatMap (fun hl ht hr => ⟨_, .compare hl ht hr⟩) (.ofSum hl)
      (fun s hs us hus hf => ihmore s hs hus hf) hrs fun t ht => hfit t (.inr ht)
  | sum _ _ ihfirst ihmore =>
    obtain ⟨ls, rs, rfl, hls, hrs⟩ := List.map_eq_append_iff.mp hts
    simp only [List.mem_append] at hfit
    obtain ⟨l, hl⟩ := ihfirst hls fun t ht => hfit t (.inl ht)
    exact exists_of_flatMap (fun hl ht hr => ⟨_, .add hl ht hr⟩) (.ofFactor hl)
      (fun s hs us hus hf => ihmore s hs hus hf) hrs fun t ht => hfit t (.inr ht)
  | literal hk =>
    obtain ⟨t, rfl, rfl⟩ := List.map_eq_singleton_iff.mp hts
    obtain ⟨v, hv, hkind⟩ := hfit t (by simp) hk
    exact ⟨_, .literal hkind hv⟩
  | name =>
    obtain ⟨t, rfl, ht⟩ := List.map_eq_singleton_iff.mp hts
    exact ⟨_, .name ht⟩
  | group _ ih =>
    obtain ⟨t, us, rfl, ht, hus⟩ := List.map_eq_cons_iff.mp hts
    obtain ⟨es, vs, rfl, hes, hvs⟩ := List.map_eq_append_iff.mp hus
    obtain ⟨u, rfl, hu⟩ := List.map_eq_singleton_iff.mp hvs
    obtain ⟨e, he⟩ := ih hes fun t ht => hfit t (by simp [ht])
    exact ⟨e, .group ht he hu⟩

/-- Tokens whose kinds are derived piece by piece fall into parts that each have their meaning. -/
private theorem exists_parts {β : Type} {R : List Token → β → Prop} {pieces : List (List Kind)}
    {ts : List Token}
    (h : ∀ s ∈ pieces, ∀ us : List Token, us.map Token.kind = s →
      (∀ t ∈ us, t.ValueFits) → ∃ x, R us x)
    (hts : ts.map Token.kind = pieces.flatten) (hfit : ∀ t ∈ ts, t.ValueFits) :
    ∃ parts : List (List Token × β), ts = (parts.map Prod.fst).flatten ∧
      ∀ p ∈ parts, R p.1 p.2 := by
  induction pieces generalizing ts with
  | nil =>
    rw [List.flatten_nil, List.map_eq_nil_iff] at hts
    exact ⟨[], by simpa using hts, by simp⟩
  | cons s pieces ih =>
    rw [List.flatten_cons] at hts
    obtain ⟨us, vs, rfl, hus, hvs⟩ := List.map_eq_append_iff.mp hts
    simp only [List.mem_append] at hfit
    obtain ⟨x, hx⟩ := h s (by simp) us hus fun t ht => hfit t (.inl ht)
    obtain ⟨parts, rfl, hparts⟩ :=
      ih (fun s hs => h s (by simp [hs])) hvs fun t ht => hfit t (.inr ht)
    exact ⟨(us, x) :: parts, by simp, List.forall_mem_cons.mpr ⟨hx, hparts⟩⟩

/-- An `else` after an open statement can be given to the nearest `if` in it. -/
theorem SpellsStmt.exists_else {ts us : List Token} {s arm : Stmt Unit} {e : Token}
    (h : SpellsStmt ts s) (hnear : s.ElseNearest) (hopen : s.endsOpen = true)
    (he : e.kind = .elseKw) (harm : SpellsStmt us arm) (hnear' : arm.ElseNearest) :
    ∃ s', SpellsStmt (ts ++ e :: us) s' ∧ s'.ElseNearest := by
  induction h with
  | declare | print | block => simp [Stmt.endsOpen] at hopen
  | @ifThen t o c ts as condition thenArm ht ho hcond hc hthen ih =>
    cases hnear with
    | ifThen hnear =>
      -- An open arm takes the `else` itself.
      cases harmOpen : thenArm.endsOpen with
      | true =>
        obtain ⟨s', hs', hn'⟩ := ih hnear harmOpen
        exact ⟨_, by simpa using .ifThen ht ho hcond hc hs', .ifThen hn'⟩
      | false =>
        exact ⟨_, by simpa using .ifElse ht ho hcond hc hthen he harm,
          .ifElse harmOpen hnear hnear'⟩
  | @ifElse t o c e' ts as bs condition thenArm elseArm ht ho hcond hc hthen he' _ _ ih =>
    cases hnear with
    | ifElse hclosed hnthen hnelse =>
      obtain ⟨s', hs', hn'⟩ := ih hnelse hopen
      exact ⟨_, by simpa using .ifElse ht ho hcond hc hthen he' hs', .ifElse hclosed hnthen hn'⟩

theorem exists_spellsStmt {ks : List Kind} (h : IsStmt ks) {ts : List Token}
    (hts : ts.map Token.kind = ks) (hfit : ∀ t ∈ ts, t.ValueFits) :
    ∃ s, SpellsStmt ts s ∧ s.ElseNearest := by
  induction h generalizing ts with
  | declare hty he =>
    obtain ⟨t, us, rfl, rfl, hus⟩ := List.map_eq_cons_iff.mp hts
    obtain ⟨n, us, rfl, hn, hus⟩ := List.map_eq_cons_iff.mp hus
    obtain ⟨a, us, rfl, ha, hus⟩ := List.map_eq_cons_iff.mp hus
    obtain ⟨es, vs, rfl, hes, hvs⟩ := List.map_eq_append_iff.mp hus
    obtain ⟨u, rfl, hu⟩ := List.map_eq_singleton_iff.mp hvs
    obtain ⟨ty, hty⟩ := exists_ty?_of_mem hty
    obtain ⟨e, he⟩ := exists_spellsExpr he hes fun t ht => hfit t (by simp [ht])
    exact ⟨_, .declare hty hn ha he hu, .declare⟩
  | print he =>
    obtain ⟨t, us, rfl, ht, hus⟩ := List.map_eq_cons_iff.mp hts
    obtain ⟨es, vs, rfl, hes, hvs⟩ := List.map_eq_append_iff.mp hus
    obtain ⟨u, rfl, hu⟩ := List.map_eq_singleton_iff.mp hvs
    obtain ⟨e, he⟩ := exists_spellsExpr he hes fun t ht => hfit t (by simp [ht])
    exact ⟨_, .print ht he hu, .print⟩
  | ifThen hc _ ih =>
    obtain ⟨t, us, rfl, ht, hus⟩ := List.map_eq_cons_iff.mp hts
    obtain ⟨o, us, rfl, ho, hus⟩ := List.map_eq_cons_iff.mp hus
    obtain ⟨cs, vs, rfl, hcs, hvs⟩ := List.map_eq_append_iff.mp hus
    obtain ⟨c, as, rfl, hclose, has⟩ := List.map_eq_cons_iff.mp hvs
    obtain ⟨condition, hcond⟩ := exists_spellsExpr hc hcs fun t ht => hfit t (by simp [ht])
    obtain ⟨a, ha, hna⟩ := ih has fun t ht => hfit t (by simp [ht])
    exact ⟨_, .ifThen ht ho hcond hclose ha, .ifThen hna⟩
  | ifElse hc _ _ iha ihb =>
    obtain ⟨t, us, rfl, ht, hus⟩ := List.map_eq_cons_iff.mp hts
    obtain ⟨o, us, rfl, ho, hus⟩ := List.map_eq_cons_iff.mp hus
    obtain ⟨cs, vs, rfl, hcs, hvs⟩ := List.map_eq_append_iff.mp hus
    obtain ⟨c, us, rfl, hclose, hus⟩ := List.map_eq_cons_iff.mp hvs
    obtain ⟨as, vs, rfl, has, hvs⟩ := List.map_eq_append_iff.mp hus
    obtain ⟨e, bs, rfl, he, hbs⟩ := List.map_eq_cons_iff.mp hvs
    obtain ⟨condition, hcond⟩ := exists_spellsExpr hc hcs fun t ht => hfit t (by simp [ht])
    obtain ⟨a, ha, hna⟩ := iha has fun t ht => hfit t (by simp [ht])
    obtain ⟨b, hb, hnb⟩ := ihb hbs fun t ht => hfit t (by simp [ht])
    cases hopen : a.endsOpen with
    | true =>
      obtain ⟨s, hs, hns⟩ := ha.exists_else hna hopen he hb hnb
      exact ⟨_, .ifThen ht ho hcond hclose hs, .ifThen hns⟩
    | false => exact ⟨_, .ifElse ht ho hcond hclose ha he hb, .ifElse hopen hna hnb⟩
  | block _ ih =>
    obtain ⟨t, us, rfl, ht, hus⟩ := List.map_eq_cons_iff.mp hts
    obtain ⟨bs, vs, rfl, hbs, hvs⟩ := List.map_eq_append_iff.mp hus
    obtain ⟨u, rfl, hu⟩ := List.map_eq_singleton_iff.mp hvs
    obtain ⟨parts, rfl, hparts⟩ :=
      exists_parts (fun s hs us hus hf => ih s hs hus hf) hbs fun t ht => hfit t (by simp [ht])
    refine ⟨_, .block ht (fun p hp => (hparts p hp).1) hu, .block ?_⟩
    intro s hs
    obtain ⟨p, hp, rfl⟩ := List.mem_map.mp hs
    exact (hparts p hp).2

theorem exists_spellsImport {ks : List Kind} (h : IsImport ks) {ts : List Token}
    (hts : ts.map Token.kind = ks) : ∃ i, SpellsImport ts i := by
  cases h with
  | use hne hpath =>
    obtain ⟨t, us, rfl, ht, hus⟩ := List.map_eq_cons_iff.mp hts
    obtain ⟨o, us, rfl, ho, hus⟩ := List.map_eq_cons_iff.mp hus
    obtain ⟨ps, vs, rfl, rfl, hvs⟩ := List.map_eq_append_iff.mp hus
    obtain ⟨c, us, rfl, hc, hus⟩ := List.map_eq_cons_iff.mp hvs
    obtain ⟨u, rfl, hu⟩ := List.map_eq_singleton_iff.mp hus
    exact ⟨_, .use ht ho (by simpa using hne)
      (fun p hp => hpath p.kind (List.mem_map_of_mem hp)) hc hu⟩

theorem exists_spellsProgram {ts : List Token} (h : IsProgram (ts.map Token.kind))
    (hfit : ∀ t ∈ ts, t.ValueFits) : ∃ p, SpellsProgram ts p ∧ p.ElseNearest := by
  generalize hks : ts.map Token.kind = ks at h
  cases h with
  | mk himports hbody =>
    obtain ⟨us, vs, rfl, hus, hvs⟩ := List.map_eq_append_iff.mp hks
    simp only [List.mem_append] at hfit
    obtain ⟨imports, rfl, hi⟩ :=
      exists_parts (fun s hs us hus _ => exists_spellsImport (himports s hs) hus) hus
        fun t ht => hfit t (.inl ht)
    obtain ⟨body, rfl, hb⟩ :=
      exists_parts (fun s hs us hus hf => exists_spellsStmt (hbody s hs) hus hf) hvs
        fun t ht => hfit t (.inr ht)
    refine ⟨_, .mk hi fun p hp => (hb p hp).1, ?_⟩
    intro s hs
    obtain ⟨p, hp, rfl⟩ := List.mem_map.mp hs
    exact (hb p hp).2

end Grammar
end HumanScript
