import Families.Proofs.ModuleScope

/-!
# Reachable checkers

A checker is reachable when calls on arguments of its scope lead to it from the checker before the
first declaration.  The states that a call passes on its way are reachable too, also those that it
undoes.  All of them are well scoped, so that no invariant of the checker is ever found broken.
-/

namespace Families

open Checker

/-! ## Calls -/

/-- A call of the checker, by the type of its answer. -/
inductive Call : Type → Type where
  | elaborate (expression : Expr) : Call Term
  | elaborateType (expression : Expr) : Call Ty
  | infer (term : Term) : Call Term
  | inferSort (term : Term) : Call Universe
  | equalTerm (left right : Term) : Call Unit
  | equalType (left right : Ty) : Call Unit
  | equalSort (left right : Universe) : Call Unit
  | leqSort (left right : Universe) : Call Unit
  | piSort (domain codomain : Universe) : Call Universe
  | freshSort (belowOmega : Bool) : Call Universe
  | freshTerm (ty : Term) : Call Term
  | declare (declaration : Declaration) : Call (Option CertifiedDatatype)
  | check (declarations : List Declaration) : Call (Diagnosed (List CertifiedDatatype))

namespace Call

variable {α : Type}

/-- What a call computes. -/
def computation : {α : Type} → Call α → CheckM α
  | _, elaborate expression => CheckM.elaborate expression
  | _, elaborateType expression => CheckM.elaborateType expression
  | _, infer term => CheckM.infer term
  | _, inferSort term => CheckM.inferSort term
  | _, equalTerm left right => CheckM.equalTerm left right
  | _, equalType left right => CheckM.equalType left right
  | _, equalSort left right => CheckM.equalSort left right
  | _, leqSort left right => CheckM.leqSort left right
  | _, piSort domain codomain => CheckM.piSort domain codomain
  | _, freshSort belowOmega => CheckM.freshSort belowOmega
  | _, freshTerm ty => CheckM.freshTerm ty
  | _, declare declaration => CheckM.checkDeclaration declaration
  | _, check declarations => CheckM.checkDeclarations declarations

/-- The arguments of a call stand in the scope of the checker.  Declarations are checked where
nothing is in scope. -/
def Accepts (checker : Checker) : {α : Type} → Call α → Prop
  | _, elaborate _ => True
  | _, elaborateType _ => True
  | _, infer term => checker.InScope term
  | _, inferSort term => checker.InScope term
  | _, equalTerm left right => checker.InScope left ∧ checker.InScope right
  | _, equalType left right => checker.InScope left ∧ checker.InScope right
  | _, equalSort left right => checker.InScope left ∧ checker.InScope right
  | _, leqSort left right => checker.InScope left ∧ checker.InScope right
  | _, piSort domain codomain => checker.InScope domain ∧ checker.InScopeUnder 1 codomain
  | _, freshSort _ => True
  | _, freshTerm ty => checker.InScope ty
  | _, declare _ => checker.context = []
  | _, check _ => checker.context = []

/-- The answer of a call stands in a scope of so many variables.  What is certified brings its own
scope. -/
def Returns (fits : Category → Nat → Nat → Prop) (depth : Nat) : {α : Type} → Call α → α → Prop
  | _, elaborate _, term => term.Scoped fits depth
  | _, elaborateType _, ty => ty.Scoped fits depth
  | _, infer _, ty => ty.Scoped fits depth
  | _, inferSort _, sort => sort.Scoped fits depth
  | _, equalTerm _ _, _ => True
  | _, equalType _ _, _ => True
  | _, equalSort _ _, _ => True
  | _, leqSort _ _, _ => True
  | _, piSort _ _, sort => sort.Scoped fits depth
  | _, freshSort _, sort => sort.Scoped fits depth
  | _, freshTerm _, term => term.Scoped fits depth
  | _, declare _, answer => ∀ certified ∈ answer, certified.Scoped fits
  | _, check _, diagnosed => ∀ certified ∈ diagnosed.value.getD [], certified.Scoped fits

/-- A call on arguments of the scope leaves the scope as it was and answers within it. -/
theorem steady {checker : Checker} (call : Call α) (wellScoped : checker.WellScoped)
    (accepts : call.Accepts checker) :
    CheckM.Steady call.computation checker fun value later =>
      call.Returns later.state.Fits checker.context.length value := by
  -- The scope of an answer is that of the last checker, which is the same.
  have restate : ∀ {category : Category} {phrase : Phrase category} {later : Checker},
      checker.Keeps later → later.InScope phrase →
      phrase.Scoped later.state.Fits checker.context.length := by
    intro category phrase later keeps inScope
    exact keeps.context ▸ inScope
  cases call with
  | elaborate expression =>
    exact (CheckM.steady_elaborate expression wellScoped).mono fun _ _ _ => restate
  | elaborateType expression =>
    exact (CheckM.steady_elaborateType expression wellScoped).mono fun _ _ _ => restate
  | infer term =>
    exact (CheckM.steady_infer wellScoped accepts).mono fun _ _ _ => restate
  | inferSort term =>
    exact (CheckM.steady_inferSort wellScoped accepts).mono fun _ _ _ => restate
  | equalTerm left right =>
    exact (CheckM.steady_equalTerm wellScoped accepts.1 accepts.2).forget
  | equalType left right =>
    exact (CheckM.steady_equalType wellScoped accepts.1 accepts.2).forget
  | equalSort left right =>
    exact (CheckM.steady_equalSort wellScoped accepts.1 accepts.2).forget
  | leqSort left right =>
    exact (CheckM.steady_leqSort wellScoped accepts.1 accepts.2).forget
  | piSort domain codomain =>
    exact (CheckM.steady_piSort wellScoped accepts.1 accepts.2).mono fun _ _ _ => restate
  | freshSort belowOmega =>
    exact (CheckM.steady_freshSort belowOmega wellScoped).mono fun _ _ _ => restate
  | freshTerm ty =>
    exact (CheckM.steady_freshTerm wellScoped accepts).mono fun _ _ _ => restate
  | declare declaration => exact CheckM.steady_checkDeclaration declaration wellScoped accepts
  | check declarations => exact CheckM.steady_checkDeclarations declarations wellScoped accepts

end Call

/-! ## Reachable checkers -/

/-- Calls on arguments of the scope lead to the checker. -/
inductive Reachable : Checker → Prop where
  | initial (options : Options) (forcing : Forcing) (fuel : Nat) :
      Reachable (Checker.initial options forcing fuel)
  | binds {checker : Checker} {domain : Domain} (reachable : Reachable checker)
      (inScope : checker.InScope domain.ty) :
      Reachable { checker with context := domain :: checker.context }
  | leaves {checker : Checker} (reachable : Reachable checker) (count : Nat) :
      Reachable { checker with context := checker.context.truncate count }
  | passes {α : Type} {checker later : Checker} (reachable : Reachable checker) (call : Call α)
      (accepts : call.Accepts checker) (passed : later ∈ (call.computation.run checker).passed) :
      Reachable later
  | ends {α : Type} {checker : Checker} (reachable : Reachable checker) (call : Call α)
      (accepts : call.Accepts checker) :
      Reachable (call.computation.run checker).state

theorem Reachable.wellScoped {checker : Checker} (reachable : Reachable checker) :
    checker.WellScoped := by
  induction reachable with
  | initial options forcing fuel => exact Checker.wellScoped_initial options forcing fuel
  | binds _ inScope ih =>
    exact ⟨ih.state, inScope, ih.context⟩
  | leaves _ count ih =>
    exact ⟨ih.state, ih.context.truncate count⟩
  | passes _ call accepts passed ih =>
    exact ((call.steady ih accepts).passed _ passed).1
  | ends _ call accepts ih =>
    exact (call.steady ih accepts).good

/-- Whatever a reachable checker stores stands in its scope, and so does whatever it returns. -/
theorem scope_invariant {checker : Checker} (reachable : Reachable checker) :
    checker.WellScoped ∧
      ∀ {α : Type} (call : Call α) (value : α), call.Accepts checker →
        (call.computation.run checker).result = .ok value →
        call.Returns (call.computation.run checker).state.state.Fits checker.context.length
          value :=
  ⟨reachable.wellScoped, fun call value accepts answered =>
    (call.steady reachable.wellScoped accepts).answer value answered⟩

/-- Under a variable of a new sort, the type of a new placeholder is inferred within the scope. -/
theorem scope_invariant_placeholder :
    let sorted := (Call.freshSort true).computation.run (Checker.initial {} .patterns 20)
    let domain : Ty := .classified (Universe.ofNat 1) (.univ (.sortPlaceholder 0 .noTerms))
    let bound : Checker := { sorted.state with context := [⟨⟨0⟩, {}, domain⟩] }
    let filled := (Call.freshTerm (.var 0)).computation.run bound
    Reachable filled.state ∧ filled.state.WellScoped ∧
      ((Call.infer (.placeholder 1 (.terms (.var 0) .noTerms))).computation.run
        filled.state).result =
        .ok (.var 0) ∧
      Phrase.Scoped filled.state.state.Fits 1 (.var 0 : Term) := by
  intro sorted domain bound filled
  have domainInScope : Checker.InScope sorted.state domain :=
    ⟨Universe.scoped_ofNat 1 0, .sort rfl, trivial⟩
  have reachable : Reachable filled.state :=
    .ends (.binds (.ends (.initial {} .patterns 20) (.freshSort true) trivial) domainInScope)
      (.freshTerm (.var 0)) Nat.one_pos
  have accepts : (Call.infer (.placeholder 1 (.terms (.var 0) .noTerms))).Accepts filled.state :=
    ⟨.term rfl, Nat.one_pos, trivial⟩
  have answered : ((Call.infer (.placeholder 1 (.terms (.var 0) .noTerms))).computation.run
      filled.state).result = .ok (.var 0) := rfl
  exact ⟨reachable, (scope_invariant reachable).1, answered,
    (scope_invariant reachable).2 _ _ accepts answered⟩

/-- The check of a module stops at no broken invariant, except for a parameter of a datatype that
has no binder or is given in another way than its binder. -/
theorem fault_of_checkDeclarations
    (declarations : List Declaration)
    (options : Options)
    (forcing : Forcing)
    (fuel : Nat)
    {fault : Fault}
    (stopped : ((CheckM.checkDeclarations declarations).run
      (Checker.initial options forcing fuel)).result = .error (.halt (.fault fault))) :
    (∃ parameter rest, fault = .parameterUnbound parameter rest) ∨
      ∃ parameter found expected, fault = .parameterPlicity parameter found expected := by
  have wellScoped := Checker.wellScoped_initial options forcing fuel
  have documented : CheckM.Documented fault :=
    (CheckM.steady_checkDeclarations declarations wellScoped rfl).fault fault stopped
  cases fault with
  | parameterUnbound parameter rest => exact .inl ⟨parameter, rest, rfl⟩
  | parameterPlicity parameter found expected => exact .inr ⟨parameter, found, expected, rfl⟩
  | _ => exact documented.elim

/-- A datatype with a parameter whose type is a sort. -/
theorem fault_of_checkDeclarations_unbound :
    let family : Declaration :=
      .data { name := "D", ty := some (.set 0), parameters := [⟨"A", .explicit, none⟩] }
    let fault : Fault := .parameterUnbound "A" (.univ (Universe.ofNat 0))
    ((CheckM.checkDeclarations [family]).run (Checker.initial {} .patterns 20)).result =
        .error (.halt (.fault fault)) ∧
      ((∃ parameter rest, fault = .parameterUnbound parameter rest) ∨
        ∃ parameter found expected, fault = .parameterPlicity parameter found expected) := by
  intro family fault
  have stopped : ((CheckM.checkDeclarations [family]).run
      (Checker.initial {} .patterns 20)).result = .error (.halt (.fault fault)) := rfl
  exact ⟨stopped, fault_of_checkDeclarations [family] {} .patterns 20 stopped⟩

end Families
