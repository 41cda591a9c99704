import Families.Checker
import Families.Proofs.Comparisons

/-!
# The checker in well-scoped states

A checker is well scoped when its state is and the variables in scope have types in scope.  Two
disciplines describe its computations: all of them leave the variables that were in scope, and the
steady ones leave no others.
-/

namespace Families

variable {category : Category} {binders : Nat} {after before : Checker} {left right : Universe}
variable {phrase : Phrase category}
variable {telescope : Telescope}

namespace Checker

/-- The state is well scoped, and the types of the variables in scope are scoped. -/
structure WellScoped (checker : Checker) : Prop where
  state : checker.state.WellScoped
  context : checker.context.Scoped checker.state.Fits

/-- The phrase stands in the scope of the checker, under so many more binders. -/
def InScopeUnder {category : Category} (checker : Checker) (binders : Nat)
    (phrase : Phrase category) : Prop :=
  phrase.Scoped checker.state.Fits (checker.context.length + binders)

/-- The phrase stands in the scope of the checker. -/
abbrev InScope {category : Category} (checker : Checker) (phrase : Phrase category) : Prop :=
  checker.InScopeUnder 0 phrase

/-- Placeholders are kept, and variables may have been brought into scope. -/
structure Extends (before after : Checker) : Prop where
  fits : ∀ {category id count}, before.state.Fits category id count →
    after.state.Fits category id count
  context : before.context <:+ after.context

/-- Placeholders are kept, and the same variables are in scope. -/
structure Keeps (before after : Checker) : Prop where
  fits : ∀ {category id count}, before.state.Fits category id count →
    after.state.Fits category id count
  context : after.context = before.context

theorem Extends.refl (checker : Checker) : checker.Extends checker :=
  ⟨id, List.suffix_refl _⟩

theorem Extends.trans {first second third : Checker} (earlier : first.Extends second)
    (later : second.Extends third) : first.Extends third :=
  ⟨fun fits => later.fits (earlier.fits fits), earlier.context.trans later.context⟩

theorem Keeps.refl (checker : Checker) : checker.Keeps checker :=
  ⟨id, rfl⟩

theorem Keeps.trans {first second third : Checker} (earlier : first.Keeps second)
    (later : second.Keeps third) : first.Keeps third :=
  ⟨fun fits => later.fits (earlier.fits fits), later.context.trans earlier.context⟩

theorem Keeps.extends (keeps : before.Keeps after) : before.Extends after :=
  ⟨keeps.fits, keeps.context ▸ List.suffix_refl _⟩

/-- What is in scope stays in scope. -/
theorem Keeps.inScope (keeps : before.Keeps after) (inScope : before.InScopeUnder binders phrase) :
    after.InScopeUnder binders phrase := by
  unfold InScopeUnder
  rw [keeps.context]
  exact inScope.mono keeps.fits (Nat.le_refl _)

/-- A closed phrase is in scope. -/
theorem inScope_of_closed {checker : Checker} (closed : phrase.Scoped checker.state.Fits 0) :
    checker.InScopeUnder binders phrase :=
  closed.mono id (Nat.zero_le _)

/-- Where nothing is in scope, only closed phrases are. -/
theorem Keeps.closed (keeps : before.Keeps after) (topLevel : before.context = [])
    (inScope : after.InScope phrase) : phrase.Scoped after.state.Fits 0 := by
  have nothing : after.context.length = 0 := by rw [keeps.context, topLevel, List.length_nil]
  exact nothing ▸ inScope

/-- What stands under binders is in scope once they are. -/
theorem inScope_of_bound (sameState : after.state = before.state)
    (bound : after.context.length = before.context.length + binders)
    (inScope : before.InScopeUnder binders phrase) : after.InScope phrase := by
  unfold InScope InScopeUnder
  rw [sameState, bound]
  exact inScope

/-- Leaving the variables that were brought into scope restores the scope. -/
theorem Extends.truncate (extends_ : before.Extends after) :
    after.context.truncate before.context.length = before.context := by
  obtain ⟨added, isContext⟩ := extends_.context
  rw [← isContext, Context.truncate_append]

end Checker

namespace CheckM

open Checker

variable {α β : Type} {checker : Checker}
variable {answers weaker : α → Checker → Prop} {body : CheckM α} {comparison : ConvM α}

/-- The two faults that the checker may stop at: a parameter of a datatype that has no binder, and
one that is given in another way than its binder. -/
def Documented : Fault → Prop
  | .parameterUnbound _ _ => True
  | .parameterPlicity _ _ _ => True
  | _ => False

/-- All variables that were in scope stay in scope. -/
def extending : Discipline Checker where
  Good := WellScoped
  Passes := Extends
  Follows := Extends
  Allows := Documented
  refl := Extends.refl
  trans := Extends.trans
  passes := Extends.trans

/-- In the end the same variables are in scope, whatever the outcome. -/
def steady : Discipline Checker where
  Good := WellScoped
  Passes := Extends
  Follows := Keeps
  Allows := Documented
  refl := Keeps.refl
  trans := Keeps.trans
  passes keeps extends_ := keeps.extends.trans extends_

/-- The computation may bring variables into scope. -/
abbrev Extending (computation : CheckM α) (checker : Checker) (answers : α → Checker → Prop) :
    Prop :=
  Respects extending computation checker answers

/-- The computation leaves the scope as it was. -/
abbrev Steady (computation : CheckM α) (checker : Checker) (answers : α → Checker → Prop) : Prop :=
  Respects steady computation checker answers

theorem Steady.extending {computation : CheckM α} (respects : Steady computation checker answers) :
    Extending computation checker fun value later => checker.Keeps later ∧ answers value later :=
  respects.weaken id id Keeps.extends id

/-! ## Changes of the checker -/

/-- A change that keeps the scope of a well-scoped checker. -/
theorem steady_modifyGet {change : Checker → α × Checker}
    (wellScoped : (change checker).2.WellScoped) (keeps : checker.Keeps (change checker).2)
    (answer : answers (change checker).1 (change checker).2) :
    Steady (modifyGet change) checker answers :=
  .modifyGet wellScoped keeps.extends keeps answer

theorem steady_enterName (text : String) (wellScoped : checker.WellScoped) :
    Steady (enterName text) checker fun _ later => later.state = checker.state :=
  steady_modifyGet ⟨wellScoped.state, wellScoped.context⟩ ⟨id, rfl⟩ rfl

theorem steady_enterPath (text : String) (wellScoped : checker.WellScoped) :
    Steady (enterPath text) checker fun _ later => later.state = checker.state :=
  steady_modifyGet ⟨wellScoped.state, wellScoped.context⟩ ⟨id, rfl⟩ rfl

section

variable (wellScoped : checker.WellScoped)

include wellScoped

/-- A change of the state to a well-scoped one in which all placeholders are kept. -/
theorem steady_modifyState {change : State → State} (changed : (change checker.state).WellScoped)
    (fits : ∀ {category id count}, checker.state.Fits category id count →
      (change checker.state).Fits category id count) :
    Steady (modifyState change) checker fun _ later =>
      later = { checker with state := change checker.state } :=
  steady_modifyGet ⟨changed, wellScoped.context.mono fits⟩ ⟨fits, rfl⟩ rfl

/-- A change of the signature that enters a scoped declaration. -/
theorem steady_updateSignature {change : Signature → Except SignatureError Signature}
    (entered : ∀ {signature}, change checker.state.signature = .ok signature →
      ∃ path entry, signature = checker.state.signature.insert path entry ∧
        entry.definition.Scoped checker.state.Fits) :
    Steady (updateSignature change) checker fun _ later => later.context = checker.context := by
  refine .get_bind ?_
  split
  · exact .fail wellScoped
  · rename_i signature changed
    have fits : ∀ {category id count}, checker.state.Fits category id count →
        State.Fits { checker.state with signature } category id count := by
      intro category id count fits
      cases fits with
      | term found => exact .term found
      | sort found => exact .sort found
    refine (steady_modifyState wellScoped ?_ fits).mono fun _ later _ _ same => same ▸ rfl
    refine wellScoped.state.of_stored fits ?_ (fun _ => .inl) (fun _ => .inl)
    obtain ⟨path, new, rfl, inScope⟩ := entered changed
    intro entry present
    rcases PathMap.mem_values_insert present with rfl | old
    · exact .inr (inScope.mono fits)
    · exact .inl old

theorem steady_register {definition : Definition} (inScope : definition.Scoped checker.state.Fits) :
    Steady (register definition) checker fun _ _ => True := by
  refine (steady_updateSignature wellScoped ?_).forget
  intro signature registered
  simp only [Signature.register] at registered
  split at registered
  · simp at registered
  · exact ⟨_, _, (Except.ok.inj registered).symm, inScope⟩

/-- Bringing a variable into scope. -/
theorem extending_push {domain : Domain} (inScope : checker.InScope domain.ty) :
    Extending (push domain) checker fun _ later =>
      later.state = checker.state ∧ later.context = domain :: checker.context :=
  have extends_ : checker.Extends { checker with context := domain :: checker.context } :=
    ⟨id, List.suffix_cons _ _⟩
  .modify ⟨wellScoped.state, inScope, wellScoped.context⟩ extends_ extends_ ⟨rfl, rfl⟩

/-! ## Undoing changes -/

/-- Leaving the variables that were brought into scope. -/
theorem steady_restoreScope (respects : Extending body checker answers)
    (implies : ∀ value later, later.WellScoped → checker.Extends later → answers value later →
      weaker value { later with context := checker.context }) :
    Steady (restoreScope body) checker weaker := by
  refine Respects.settle respects (fun good passes => ⟨good, passes⟩) ?_ id ?_
  · intro later _ laterWellScoped extends_
    simp only [extends_.truncate]
    have keeps : checker.Keeps { later with context := checker.context } := ⟨extends_.fits, rfl⟩
    exact ⟨⟨laterWellScoped.state, wellScoped.context.mono extends_.fits⟩, keeps.extends, keeps⟩
  · intro value later laterWellScoped extends_ answer
    simp only [extends_.truncate]
    exact implies value later laterWellScoped extends_ answer

/-- Undoing everything after a failure. -/
theorem steady_speculate
    (respects : Steady body checker answers) : Steady (speculate body) checker answers := by
  refine Respects.settle respects (fun good passes => ⟨good, passes⟩) ?_ id ?_
  · intro later succeeded laterWellScoped keeps
    split
    · exact ⟨laterWellScoped, keeps.extends, keeps⟩
    · simp only [keeps.extends.truncate]
      have undone : checker.Keeps
          { later with state := checker.state, context := checker.context } :=
        ⟨id, rfl⟩
      exact ⟨⟨wellScoped.state, wellScoped.context⟩, undone.extends, undone⟩
  · intro value later _ _ answer
    exact answer

/-- Undoing all changes to the state. -/
theorem steady_localState (respects : Steady body checker answers) :
    Steady (localState body) checker fun _ later => later.state = checker.state := by
  refine Respects.settle respects (fun good passes => ⟨good, passes⟩) ?_ id fun _ _ _ _ _ => rfl
  intro later _ _ keeps
  have undone : checker.Keeps { later with state := checker.state } := ⟨id, keeps.context⟩
  have undoneWellScoped : WellScoped { later with state := checker.state } := by
    refine ⟨wellScoped.state, ?_⟩
    show Context.Scoped checker.state.Fits later.context
    rw [keeps.context]
    exact wellScoped.context
  exact ⟨undoneWellScoped, undone.extends, undone⟩

/-- Bringing the binders of a telescope into scope. -/
theorem extending_forM_push
    (inScope : Telescope.Scoped checker.state.Fits checker.context.length telescope) :
    Extending (telescope.forM push) checker fun _ later =>
      later.state = checker.state ∧ later.context.length =
        checker.context.length + telescope.length := by
  induction telescope generalizing checker with
  | nil => exact .pure wellScoped ⟨rfl, rfl⟩
  | cons domain rest ih =>
    refine .bind (extending_push wellScoped inScope.1) ?_
    rintro _ later laterWellScoped _ ⟨sameState, pushed⟩
    have restInScope : Telescope.Scoped later.state.Fits later.context.length rest := by
      rw [sameState, pushed]
      exact inScope.2
    refine (ih laterWellScoped restInScope).mono ?_
    rintro _ last _ _ ⟨lastState, lastLength⟩
    refine ⟨lastState.trans sameState, ?_⟩
    rw [lastLength, pushed, List.length_cons, List.length_cons]
    omega

/-- Working under the binders of a telescope. -/
theorem steady_under
    (inScope : Telescope.Scoped checker.state.Fits checker.context.length telescope)
    (respects : ∀ {later : Checker}, later.WellScoped → later.state = checker.state →
      later.context.length = checker.context.length + telescope.length →
      Steady body later answers)
    (implies : ∀ value (later : Checker), later.WellScoped → later.context.length =
      checker.context.length + telescope.length → answers value later →
      weaker value { later with context := checker.context }) :
    Steady (under telescope body) checker weaker := by
  have extending : Extending (do telescope.forM push; body) checker fun value later =>
      later.context.length = checker.context.length + telescope.length ∧ answers value later := by
    refine .bind (extending_forM_push wellScoped inScope) ?_
    rintro _ later laterWellScoped _ ⟨sameState, length⟩
    refine (respects laterWellScoped sameState length).extending.mono ?_
    rintro value last _ _ ⟨keeps, answer⟩
    exact ⟨keeps.context ▸ length, answer⟩
  refine steady_restoreScope wellScoped extending ?_
  rintro value later laterWellScoped _ ⟨length, answer⟩
  exact implies value later laterWellScoped length answer

/-! ## Comparisons, reduction and new placeholders -/

/-- A comparison in the checker's state, keeping an error as a value. -/
theorem steady_attempt {answers : α → State → Prop}
    (respects : Respects ConvM.discipline comparison checker.state answers) :
    Steady (attempt comparison) checker fun outcome later =>
      Develops checker.state later.state ∧ ∀ value, outcome = .ok value →
        answers value later.state := by
  have changed : ∀ {state : State}, state.WellScoped → Develops checker.state state →
      WellScoped { checker with state } ∧ checker.Keeps { checker with state } :=
    fun stateWellScoped develops =>
      ⟨⟨stateWellScoped, wellScoped.context.mono develops.grows.fits⟩, develops.grows.fits, rfl⟩
  constructor
  · intro later present
    obtain ⟨state, statePresent, rfl⟩ := List.mem_map.1 present
    obtain ⟨stateWellScoped, develops⟩ := respects.passed state statePresent
    obtain ⟨laterWellScoped, keeps⟩ := changed stateWellScoped develops
    exact ⟨laterWellScoped, keeps.extends⟩
  · exact (changed respects.good respects.follows).1
  · exact (changed respects.good respects.follows).2
  · rintro outcome attempted
    refine ⟨respects.follows, ?_⟩
    rintro value rfl
    refine respects.answer value ?_
    simp only [attempt] at attempted
    split at attempted
    · rename_i result
      rw [result]
      simpa using attempted
    · simp at attempted
    · simp at attempted
  · intro fault failed
    have stopped : (comparison.run checker.state).result = .error (.halt (.fault fault)) := by
      simp only [attempt] at failed
      split at failed
      · simp at failed
      · simp at failed
      · rename_i reason result
        rw [result]
        simpa using failed
    exact (respects.fault fault stopped).elim

theorem steady_convert {answers : α → State → Prop}
    (respects : Respects ConvM.discipline comparison checker.state answers) :
    Steady (convert comparison) checker fun value later => answers value later.state := by
  refine .bind (steady_attempt wellScoped respects) ?_
  rintro outcome later laterWellScoped _ ⟨_, answer⟩
  split
  · exact .pure laterWellScoped (answer _ rfl)
  · exact .fail laterWellScoped

theorem steady_tryEqualTerm {left right : Term}
    (leftInScope : checker.InScope left) (rightInScope : checker.InScope right) :
    Steady (tryEqualTerm left right) checker fun _ later =>
      Develops checker.state later.state :=
  .get_bind ((steady_attempt wellScoped
    (ConvM.equalTerm_decides wellScoped.state leftInScope rightInScope)).mono
      fun _ _ _ _ answer => answer.1)

theorem steady_tryLeqSort (leftInScope : checker.InScope left)
    (rightInScope : checker.InScope right) :
    Steady (tryLeqSort left right) checker fun _ later =>
      Develops checker.state later.state :=
  .get_bind ((steady_attempt wellScoped
    (ConvM.safe_leqSort wellScoped.state leftInScope rightInScope)).mono
      fun _ _ _ _ answer => answer.1)

theorem steady_equalTerm {left right : Term}
    (leftInScope : checker.InScope left) (rightInScope : checker.InScope right) :
    Steady (equalTerm left right) checker fun _ later =>
      Decides Agrees checker.state later.state left right :=
  .get_bind (steady_convert wellScoped
    (ConvM.equalTerm_decides wellScoped.state leftInScope rightInScope))

theorem steady_equalType {left right : Ty}
    (leftInScope : checker.InScope left) (rightInScope : checker.InScope right) :
    Steady (equalType left right) checker fun _ later =>
      Decides Agrees checker.state later.state left.term right.term :=
  .get_bind (steady_convert wellScoped
    (ConvM.equalTerm_decides wellScoped.state leftInScope.term rightInScope.term))

theorem steady_equalSort (leftInScope : checker.InScope left)
    (rightInScope : checker.InScope right) :
    Steady (equalSort left right) checker fun _ later =>
      Decides Eq checker.state later.state left right :=
  .get_bind (steady_convert wellScoped
    (ConvM.equalSort_decides wellScoped.state leftInScope rightInScope))

theorem steady_leqSort (leftInScope : checker.InScope left)
    (rightInScope : checker.InScope right) : Steady (leqSort left right) checker fun _ _ => True :=
  .get_bind (steady_convert wellScoped
    (ConvM.safe_leqSort wellScoped.state leftInScope rightInScope))

theorem steady_reduce (inScope : checker.InScopeUnder binders phrase) :
    Steady (reduce phrase) checker fun result later =>
      checker = later ∧ checker.InScopeUnder binders result :=
  .get_bind (.lift wellScoped (faultless_reduce _ _ _) fun _ reduced =>
    ⟨rfl, (reduces_of_reduce wellScoped.state reduced inScope).2⟩)

theorem steady_normalise (inScope : checker.InScopeUnder binders phrase) :
    Steady (normalise phrase) checker fun result later =>
      checker = later ∧ checker.InScopeUnder binders result :=
  .get_bind (.lift wellScoped (faultless_normalise _ _ _) fun _ normalised =>
    ⟨rfl, (normalises_of_normalise wellScoped.state normalised inScope).2⟩)

theorem steady_telescopeView {ty : Ty} (inScope : checker.InScope ty) :
    Steady (telescopeView ty) checker fun view later =>
      checker = later ∧
        Telescope.Scoped checker.state.Fits checker.context.length view.1 ∧
        checker.InScopeUnder view.1.length view.2 :=
  .get_bind (.lift wellScoped (faultless_telescopeView _ _ _) fun _ viewed =>
    ⟨rfl, scoped_telescopeView wellScoped.state inScope viewed⟩)

/-- A new placeholder whose kind is scoped. -/
theorem steady_addPlaceholder {kind : PlaceholderKind}
    (inScope : kind.Scoped checker.state.Fits checker.context.length) :
    Steady (addPlaceholder checker.context.length kind) checker fun id later =>
      later.state.placeholders[id]? = some ⟨checker.context.length, kind, none⟩ := by
  refine .get_bind (.bind (steady_modifyState wellScoped (wellScoped.state.addPlaceholder inScope)
    (State.grows_addPlaceholder _ _ _).fits) ?_)
  rintro _ later laterWellScoped _ rfl
  exact .pure laterWellScoped (State.getElem?_addPlaceholder _ _ _)

end

theorem steady_freshSort (belowOmega : Bool) (wellScoped : checker.WellScoped) :
    Steady (freshSort belowOmega) checker fun sort later => later.InScope sort := by
  refine .get_bind (.bind (steady_addPlaceholder wellScoped trivial) ?_)
  intro id later laterWellScoped keeps found
  have fits : later.state.Fits .sort id checker.context.identity.toList.length := by
    rw [Context.length_toList_identity]
    exact .sort found
  exact .pure laterWellScoped ⟨fits, keeps.context ▸ Context.scoped_identity later.context⟩

theorem steady_freshTerm {ty : Term} (wellScoped : checker.WellScoped)
    (inScope : checker.InScope ty) :
    Steady (freshTerm ty) checker fun term later => later.InScope term := by
  refine .get_bind (.bind (steady_addPlaceholder wellScoped inScope) ?_)
  intro id later laterWellScoped keeps found
  have fits : later.state.Fits .term id checker.context.identity.toList.length := by
    rw [Context.length_toList_identity]
    exact .term found
  exact .pure laterWellScoped ⟨fits, keeps.context ▸ Context.scoped_identity later.context⟩

theorem steady_piSort {domain codomain : Universe} (wellScoped : checker.WellScoped)
    (domainInScope : checker.InScope domain) (codomainInScope : checker.InScopeUnder 1 codomain) :
    Steady (piSort domain codomain) checker fun sort later => later.InScope sort := by
  refine .bind (steady_reduce wellScoped domainInScope) ?_
  rintro domain' _ _ _ ⟨rfl, domain'InScope⟩
  refine .bind (steady_reduce wellScoped codomainInScope) ?_
  rintro codomain' _ _ _ ⟨rfl, codomain'InScope⟩
  have outsideInScope : ∀ sort, codomain'.strengthen? 1 = some sort → checker.InScope sort :=
    fun sort strengthened => Phrase.Scoped.strengthen? codomain'InScope strengthened
  simp only
  split
  · rename_i sort computed
    exact .pure wellScoped (Universe.scoped_pi? domain'InScope outsideInScope computed)
  · refine .bind (steady_freshSort false wellScoped) ?_
    intro sort later laterWellScoped keeps sortInScope
    refine .bind (steady_leqSort laterWellScoped (keeps.inScope domain'InScope) sortInScope) ?_
    intro _ last lastWellScoped keeps' _
    split
    · rename_i outside strengthened
      refine .bind (steady_leqSort lastWellScoped
        ((keeps.trans keeps').inScope (outsideInScope outside strengthened))
        (keeps'.inScope sortInScope)) ?_
      intro _ end_ endWellScoped keeps'' _
      exact .pure endWellScoped (keeps''.inScope (keeps'.inScope sortInScope))
    · exact .pure lastWellScoped (keeps'.inScope sortInScope)

end CheckM
end Families
