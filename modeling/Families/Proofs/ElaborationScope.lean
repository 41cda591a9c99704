import Families.Elaboration
import Families.Proofs.CheckerScope

/-!
# Inference and elaboration in well-scoped states

The type of a term in scope is in scope, and so is the term that an expression means.  Neither
inference nor elaboration breaks an invariant: no variable escapes its context, and every
placeholder that is asked for its type stands for a term.
-/

namespace Families
namespace CheckM

open Checker

variable {checker : Checker}

/-! ## Inference -/

theorem steady_inferVariable {index : Nat} (wellScoped : checker.WellScoped)
    (inScope : index < checker.context.length) :
    Steady (inferVariable index) checker fun ty later => later.InScope ty := by
  refine .get_bind (.lift_bind wellScoped (faultless_checked _) fun found isType => ?_)
  rw [checked_eq_ok_iff] at isType
  cases found with
  | none => exact absurd isType (Context.typeOf?_ne_some_none inScope)
  | some ty => exact .pure wellScoped (wellScoped.context.typeOf? isType).term

theorem steady_inferConstant (path : Path) (wellScoped : checker.WellScoped) :
    Steady (inferConstant path) checker fun ty later => later.InScope ty := by
  refine .get_bind ?_
  split
  · rename_i definition found
    exact .pure wellScoped (inScope_of_closed (wellScoped.state.definition found).1.term)
  · exact .fail wellScoped

theorem steady_inferPlaceholder {id : Nat} {arguments : Phrase .terms}
    (wellScoped : checker.WellScoped) (inScope : checker.InScope (.placeholder id arguments)) :
    Steady (inferPlaceholder id arguments) checker fun ty later => later.InScope ty := by
  refine .get_bind ?_
  obtain ⟨fits, argumentsInScope⟩ := inScope
  cases fits with
  | term found =>
    rw [found]
    refine .lift wellScoped (faultless_checked _) fun ty substituted => ?_
    rw [checked_eq_ok_iff] at substituted
    have typeInScope := (wellScoped.state.placeholders _ (List.mem_of_getElem? found)).1
    exact Phrase.Scoped.substitute? typeInScope
      ((Phrase.scoped_iff_toList arguments).1 argumentsInScope) substituted

/-- The type of a phrase in scope that is a term is in scope. -/
theorem steady_inferPhrase {category : Category} {phrase : Phrase category}
    (isTerm : category = .term) (wellScoped : checker.WellScoped)
    (inScope : checker.InScope phrase) :
    Steady (inferPhrase phrase isTerm) checker fun ty later => later.InScope ty := by
  induction phrase generalizing checker with
  | var index => exact steady_inferVariable wellScoped inScope
  | const path => exact steady_inferConstant path wellScoped
  | app function argument info ihFunction ihArgument =>
    rw [inferPhrase]
    refine .bind (ihFunction rfl wellScoped inScope.1) ?_
    intro functionType second secondWellScoped keeps functionTypeInScope
    refine .bind (steady_reduce secondWellScoped functionTypeInScope) ?_
    rintro reduced _ _ _ ⟨rfl, reducedInScope⟩
    split
    · rename_i name domainInfo domain codomain
      split
      · refine .bind (ihArgument rfl secondWellScoped (keeps.inScope inScope.2)) ?_
        intro argumentType third thirdWellScoped keeps' argumentTypeInScope
        refine .bind (steady_equalTerm thirdWellScoped argumentTypeInScope
          (keeps'.inScope reducedInScope.1.term)) ?_
        intro _ last lastWellScoped keeps'' _
        refine .lift lastWellScoped (faultless_checked _) fun ty instantiated => ?_
        rw [checked_eq_ok_iff] at instantiated
        have codomainInScope : second.InScopeUnder 1 codomain.term := reducedInScope.2.term
        have afterwards := keeps'.trans keeps''
        exact Phrase.Scoped.instantiate? (afterwards.inScope codomainInScope)
          ((keeps.trans afterwards).inScope inScope.2) instantiated
      · exact .fail secondWellScoped
    · exact .fail secondWellScoped
  | pi name info domain codomain =>
    rw [inferPhrase]
    refine .bind (steady_piSort wellScoped inScope.1.sort inScope.2.sort) ?_
    intro sort later laterWellScoped _ sortInScope
    exact .pure laterWellScoped sortInScope
  | univ sort =>
    rw [inferPhrase]
    refine .lift_bind wellScoped (faultless_checked _) fun above succeeded => ?_
    exact .pure wellScoped (Universe.scoped_succ? inScope (checked_eq_ok_iff.1 succeeded))
  | level bound => exact .pure wellScoped trivial
  | placeholder id arguments => exact steady_inferPlaceholder wellScoped inScope
  | _ => cases isTerm

theorem steady_infer {term : Term} (wellScoped : checker.WellScoped)
    (inScope : checker.InScope term) :
    Steady (infer term) checker fun ty later => later.InScope ty :=
  steady_inferPhrase rfl wellScoped inScope

theorem steady_inferSort {term : Term} (wellScoped : checker.WellScoped)
    (inScope : checker.InScope term) :
    Steady (inferSort term) checker fun sort later => later.InScope sort := by
  refine .bind (steady_infer wellScoped inScope) ?_
  intro ty second secondWellScoped _ typeInScope
  refine .bind (steady_reduce secondWellScoped typeInScope) ?_
  rintro reduced _ _ _ ⟨rfl, reducedInScope⟩
  split
  · exact .pure secondWellScoped reducedInScope
  · refine .bind (steady_freshSort false secondWellScoped) ?_
    intro sort third thirdWellScoped keeps sortInScope
    refine .bind (steady_equalTerm thirdWellScoped (keeps.inScope reducedInScope) sortInScope) ?_
    intro _ last lastWellScoped keeps' _
    exact .pure lastWellScoped (keeps'.inScope sortInScope)
  · exact .fail secondWellScoped

/-! ## Elaboration -/

theorem steady_resolveVariable (text : String) (wellScoped : checker.WellScoped) :
    Steady (resolveVariable text) checker fun term later => later.InScope term := by
  refine .bind (steady_enterName text wellScoped) ?_
  intro name later laterWellScoped _ _
  refine .get_bind ?_
  split
  · rename_i index found
    have bounded : index < later.context.length := (List.findIdx?_eq_some_iff_findIdx_eq.1 found).1
    exact .pure laterWellScoped bounded
  · exact .fail laterWellScoped

theorem steady_resolveConstant (text : String) (wellScoped : checker.WellScoped) :
    Steady (resolveConstant text) checker fun term later => later.InScope term := by
  refine .bind (steady_enterPath text wellScoped) ?_
  intro path later laterWellScoped _ _
  refine .get_bind ?_
  split
  · exact .pure laterWellScoped trivial
  · exact .fail laterWellScoped

theorem steady_asType {term : Term} (wellScoped : checker.WellScoped)
    (inScope : checker.InScope term) :
    Steady (asType term) checker fun ty later => later.InScope ty := by
  refine .bind (steady_inferSort wellScoped inScope) ?_
  intro sort later laterWellScoped keeps sortInScope
  exact .pure laterWellScoped ⟨sortInScope, keeps.inScope inScope⟩

theorem steady_asLevel {term : Term} (expression : Expr) (wellScoped : checker.WellScoped)
    (inScope : checker.InScope term) :
    Steady (asLevel expression term) checker fun level later => later.InScope level := by
  have checkedLevel : Steady
      (do
        let ty ← infer term
        equalTerm ty (.const Path.level)
        pure (Level.ofTerm term))
      checker fun level later => later.InScope level := by
    refine .bind (steady_infer wellScoped inScope) ?_
    intro ty second secondWellScoped keeps typeInScope
    refine .bind (steady_equalTerm secondWellScoped typeInScope trivial) ?_
    intro _ last lastWellScoped keeps' _
    exact .pure lastWellScoped (Level.scoped_ofTerm ((keeps.trans keeps').inScope inScope))
  cases expression with
  | levelLit | levelSuc | levelMax => exact .pure wellScoped (Level.scoped_ofTerm inScope)
  | _ => exact checkedLevel

theorem steady_freshHole (wellScoped : checker.WellScoped) :
    Steady freshHole checker fun term later => later.InScope term := by
  refine .bind (steady_freshSort false wellScoped) ?_
  intro sort second secondWellScoped _ sortInScope
  refine .bind (steady_freshTerm secondWellScoped sortInScope) ?_
  intro ty third thirdWellScoped _ typeInScope
  exact steady_freshTerm thirdWellScoped typeInScope

/-- A function type whose codomain is elaborated under its binder. -/
theorem steady_elaboratePi {name : Name} {info : ArgInfo} {domain : Ty} {codomain : Expr}
    (elaborated : ∀ {checker : Checker}, checker.WellScoped →
      Steady (elaborate codomain) checker fun term later => later.InScope term)
    (wellScoped : checker.WellScoped) (domainInScope : checker.InScope domain) :
    Steady
      (do
        let codomain ← under [⟨name, info, domain⟩] do
          let codomain ← elaborate codomain
          asType codomain
        pure (.pi name info domain codomain))
      checker fun term later => later.InScope term := by
  have elaboratedType : ∀ {checker : Checker}, checker.WellScoped → Steady
      (do
        let codomain ← elaborate codomain
        asType codomain)
      checker fun codomain later => later.InScope codomain := by
    intro checker wellScoped
    refine .bind (elaborated wellScoped) ?_
    intro term last lastWellScoped _ termInScope
    exact steady_asType lastWellScoped termInScope
  have underBinder : Steady
      (under [⟨name, info, domain⟩] do
        let codomain ← elaborate codomain
        asType codomain)
      checker fun codomain later => later.InScopeUnder 1 codomain := by
    refine steady_under wellScoped ⟨domainInScope, trivial⟩ (fun good _ _ => elaboratedType good) ?_
    intro codomain later _ length codomainInScope
    simpa [InScopeUnder, length] using codomainInScope
  refine .bind underBinder ?_
  intro codomain later laterWellScoped keeps codomainInScope
  exact .pure laterWellScoped ⟨keeps.inScope domainInScope, codomainInScope⟩

mutual

/-- The term that an expression means is in scope. -/
theorem steady_elaborate :
    ∀ (expression : Expr) {checker : Checker}, checker.WellScoped →
      Steady (elaborate expression) checker fun term later => later.InScope term
  | .var name, _, wellScoped => by
    rw [elaborate]
    exact steady_resolveVariable name wellScoped
  | .const name, _, wellScoped => by
    rw [elaborate]
    exact steady_resolveConstant name wellScoped
  | .app function arguments, _, wellScoped => by
    rw [elaborate]
    refine .bind (steady_elaborate function wellScoped) ?_
    intro function second secondWellScoped _ functionInScope
    refine .bind (steady_elaborateArguments arguments secondWellScoped functionInScope) ?_
    intro term third thirdWellScoped _ termInScope
    refine .bind (steady_infer thirdWellScoped termInScope) ?_
    intro _ last lastWellScoped keeps _
    exact .pure lastWellScoped (keeps.inScope termInScope)
  | .pi name info domain codomain, _, wellScoped => by
    rw [elaborate]
    refine .bind (steady_enterName name wellScoped) ?_
    intro name second secondWellScoped _ _
    refine .bind (steady_elaborate domain secondWellScoped) ?_
    intro domain third thirdWellScoped _ domainInScope
    refine .bind (steady_asType thirdWellScoped domainInScope) ?_
    intro domain fourth fourthWellScoped _ domainInScope
    exact steady_elaboratePi (steady_elaborate codomain) fourthWellScoped domainInScope
  | .arrow domain codomain, _, wellScoped => by
    rw [elaborate]
    refine .bind (steady_enterName "_" wellScoped) ?_
    intro name second secondWellScoped _ _
    refine .bind (steady_elaborate domain secondWellScoped) ?_
    intro domain third thirdWellScoped _ domainInScope
    refine .bind (steady_asType thirdWellScoped domainInScope) ?_
    intro domain fourth fourthWellScoped _ domainInScope
    exact steady_elaboratePi (steady_elaborate codomain) fourthWellScoped domainInScope
  | .set level, checker, wellScoped => by
    rw [elaborate]
    have inScope : checker.InScope (Universe.ofNat level) := Universe.scoped_ofNat level _
    exact .pure wellScoped inScope
  | .setAt level, _, wellScoped => by
    rw [elaborate]
    refine .bind (steady_elaborate level wellScoped) ?_
    intro term second secondWellScoped _ termInScope
    refine .bind (steady_asLevel level secondWellScoped termInScope) ?_
    intro bound last lastWellScoped _ boundInScope
    exact .pure lastWellScoped boundInScope
  | .prop, _, wellScoped => by
    rw [elaborate]
    exact .pure wellScoped trivial
  | .setOmega, _, wellScoped => by
    rw [elaborate]
    exact .pure wellScoped trivial
  | .sizeUniv, _, wellScoped => by
    rw [elaborate]
    exact .pure wellScoped trivial
  | .levelLit level, checker, wellScoped => by
    rw [elaborate]
    have inScope : checker.InScope (Level.ofNat level) := Level.scoped_ofNat level _
    exact .pure wellScoped inScope
  | .levelSuc level, _, wellScoped => by
    rw [elaborate]
    refine .bind (steady_elaborate level wellScoped) ?_
    intro term second secondWellScoped _ termInScope
    refine .bind (steady_asLevel level secondWellScoped termInScope) ?_
    intro bound third thirdWellScoped _ boundInScope
    refine .lift_bind thirdWellScoped (faultless_checked _) fun next succeeded => ?_
    exact .pure thirdWellScoped (Level.scoped_raise? boundInScope (checked_eq_ok_iff.1 succeeded))
  | .levelMax left right, _, wellScoped => by
    rw [elaborate]
    refine .bind (steady_elaborate left wellScoped) ?_
    intro leftTerm second secondWellScoped _ leftTermInScope
    refine .bind (steady_asLevel left secondWellScoped leftTermInScope) ?_
    intro leftLevel third thirdWellScoped _ leftInScope
    refine .bind (steady_elaborate right thirdWellScoped) ?_
    intro rightTerm fourth fourthWellScoped keeps rightTermInScope
    refine .bind (steady_asLevel right fourthWellScoped rightTermInScope) ?_
    intro rightLevel last lastWellScoped keeps' rightInScope
    exact .pure lastWellScoped
      (Level.scoped_join ((keeps.trans keeps').inScope leftInScope) rightInScope)
  | .hole, _, wellScoped => by
    rw [elaborate]
    exact steady_freshHole wellScoped

/-- A term in scope applied to what arguments mean is in scope. -/
theorem steady_elaborateArguments :
    ∀ (arguments : List (ArgMode × Expr)) {checker : Checker} {function : Term},
      checker.WellScoped → checker.InScope function →
      Steady (elaborateArguments function arguments) checker fun term later => later.InScope term
  | [], _, _, wellScoped, inScope => by
    rw [elaborateArguments]
    exact .pure wellScoped inScope
  | (mode, argument) :: arguments, _, _, wellScoped, inScope => by
    rw [elaborateArguments]
    refine .bind (steady_elaborate argument wellScoped) ?_
    intro argument later laterWellScoped keeps argumentInScope
    exact steady_elaborateArguments arguments laterWellScoped
      ⟨keeps.inScope inScope, argumentInScope⟩

end

theorem steady_elaborateType (expression : Expr) (wellScoped : checker.WellScoped) :
    Steady (elaborateType expression) checker fun ty later => later.InScope ty := by
  refine .bind (steady_elaborate expression wellScoped) ?_
  intro term later laterWellScoped _ termInScope
  exact steady_asType laterWellScoped termInScope

end CheckM
end Families
