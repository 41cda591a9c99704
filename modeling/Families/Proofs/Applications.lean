import Families.Proofs.Targets

/-!
# Applications and their binders

Every application of an elaborated term was checked by inference: the type of the function reduced
to a function type, whose binder takes its argument in the way in which it was written.  What was
found then is found again when the type is inferred later.  Relevance is not compared, so an
application says of its argument what was written, whatever the binder says.
-/

namespace Families

variable {term : Term} {info : ArgInfo} {name : Name}
variable {domain codomain : Ty} {ty : Term} {fuel : Nat} {function : Term}

/-! ## The applications of a phrase -/

/-- Every application in the phrase satisfies the condition, each with the variables in scope there.
The sorts of types, which are inferred and not written, do not count. -/
def Phrase.AllApplications (holds : Context → Term → ArgInfo → Prop) :
    {category : Category} → Context → Phrase category → Prop
  | _, _, .var _ => True
  | _, _, .const _ => True
  | _, context, .app function argument info =>
    holds context function info ∧ AllApplications holds context function ∧
      AllApplications holds context argument
  | _, context, .pi name info domain codomain =>
    AllApplications holds context domain ∧
      AllApplications holds (⟨name, info, domain⟩ :: context) codomain
  | _, context, .univ sort => AllApplications holds context sort
  | _, context, .level bound => AllApplications holds context bound
  | _, context, .placeholder _ arguments => AllApplications holds context arguments
  | _, context, .classified _ term => AllApplications holds context term
  | _, _, .prop => True
  | _, context, .set bound => AllApplications holds context bound
  | _, _, .sizeUniv => True
  | _, _, .omega => True
  | _, context, .sortPlaceholder _ arguments => AllApplications holds context arguments
  | _, context, .lub _ atoms => AllApplications holds context atoms
  | _, _, .noAtoms => True
  | _, context, .atom term _ rest =>
    AllApplications holds context term ∧ AllApplications holds context rest
  | _, _, .noTerms => True
  | _, context, .terms first rest =>
    AllApplications holds context first ∧ AllApplications holds context rest

namespace Phrase.AllApplications

variable {holds weaker : Context → Term → ArgInfo → Prop} {category : Category} {context : Context}

theorem mono {phrase : Phrase category} (all : phrase.AllApplications holds context)
    (implies : ∀ {context function info}, holds context function info →
      weaker context function info) :
    phrase.AllApplications weaker context := by
  induction phrase generalizing context with
  | app function argument info ihFunction ihArgument =>
    exact ⟨implies all.1, ihFunction all.2.1, ihArgument all.2.2⟩
  | pi name info domain codomain ihDomain ihCodomain =>
    exact ⟨ihDomain all.1, ihCodomain all.2⟩
  | atom term offset rest ihTerm ihRest =>
    exact ⟨ihTerm all.1, ihRest all.2⟩
  | terms first rest ihFirst ihRest =>
    exact ⟨ihFirst all.1, ihRest all.2⟩
  | classified sort term _ ih => exact @ih context all
  | univ part ih | level part ih
  | set part ih | placeholder id part ih
  | sortPlaceholder id part ih | lub constant part ih =>
    exact @ih context all
  | _ => trivial

theorem iff_toList :
    ∀ {sequence : Phrase .terms}, sequence.AllApplications holds context ↔
      ∀ term ∈ sequence.toList, term.AllApplications holds context
  | .noTerms => by simp [AllApplications]
  | .terms first rest => by
    have tail : rest.AllApplications holds context ↔ _ := iff_toList
    simp [AllApplications, tail]

theorem iff_atomList :
    ∀ {atoms : Phrase .atoms}, atoms.AllApplications holds context ↔
      ∀ atom ∈ atoms.atomList, atom.term.AllApplications holds context
  | .noAtoms => by simp [AllApplications]
  | .atom term offset rest => by
    have tail : rest.AllApplications holds context ↔ _ := iff_atomList
    simp [AllApplications, tail]

theorem iff_terms :
    ∀ {level : Level}, level.AllApplications holds context ↔
      ∀ term ∈ Level.terms level, term.AllApplications holds context
  | .lub constant atoms => by
    simp [AllApplications, iff_atomList, Level.terms, Level.atoms]

theorem identity (context scope : Context) : scope.identity.AllApplications holds context := by
  rw [iff_toList, Context.toList_identity]
  simp [AllApplications]

theorem ofTerm (all : term.AllApplications holds context) :
    (Level.ofTerm term).AllApplications holds context := by
  cases term with
  | level bound => exact all
  | _ => exact ⟨all, trivial⟩

theorem join {left right : Level} (leftAll : left.AllApplications holds context)
    (rightAll : right.AllApplications holds context) :
    (Level.join left right).AllApplications holds context := by
  rw [iff_terms] at *
  intro term present
  exact (Level.mem_terms_join.1 present).elim (leftAll term) (rightAll term)

theorem succ? {level next : Level} (all : level.AllApplications holds context)
    (succeeded : Level.succ? level = some next) : next.AllApplications holds context := by
  rw [iff_terms] at *
  rw [Level.eq_raise_of_raise? succeeded]
  exact fun term present => all term (Level.mem_terms_raise.1 present)

end Phrase.AllApplications

/-! ## Inferring a type once more -/

theorem reduce_univ_ne_pi {state : State} {sort : Universe} :
    reduce state fuel (.univ sort) ≠ .ok (.pi name info domain codomain) := by
  cases fuel with
  | zero => simp [reduce]
  | succ fuel =>
    intro reduced
    simp only [reduce, bind_eq_ok_iff] at reduced
    obtain ⟨_, _, isResult⟩ := reduced
    cases isResult

namespace CheckM

variable {before after : Checker}

/-- The type of an application: the function has a function type, whose binder takes an argument
that is given in this way. -/
theorem yields_infer_app {argument : Term}
    (yields : Yields (infer (.app function argument info)) before ty after) :
    ∃ functionType middle name domainInfo domain codomain,
      Yields (infer function) before functionType middle ∧
        Families.reduce middle.state middle.fuel functionType =
          .ok (.pi name domainInfo domain codomain) ∧
        domainInfo.plicity = info.plicity ∧
        codomain.term.instantiate? argument = some ty ∧
        middle.Consults after := by
  simp only [infer, inferPhrase, yields_bind_iff, yields_reduce_iff] at yields
  obtain ⟨functionType, middle, isFunction, reduced, _, ⟨isReduced, rfl⟩, yields⟩ := yields
  cases reduced with
  | pi name domainInfo domain codomain =>
    simp only at yields
    split at yields
    · rename_i same
      simp only [yields_bind_iff, yields_lift_iff, checked_eq_ok_iff] at yields
      obtain ⟨argumentType, third, isArgument, _, last, compared, instantiated, rfl⟩ := yields
      exact ⟨functionType, middle, name, domainInfo, domain, codomain, isFunction, isReduced, same,
        instantiated, ((built_infer argument).consults isArgument).trans
          ((built_equalTerm _ _).consults compared)⟩
    · exact absurd yields not_yields_fail
  | _ => exact absurd yields not_yields_fail

/-- The type of a term does not depend on what was learned since it was inferred.  Only a sort may
be another one. -/
theorem infer_again :
    ∀ {term ty ty' : Term} {before after later last : Checker},
      Yields (infer term) before ty after → Yields (infer term) later ty' last →
      later.context = before.context → later.fuel = before.fuel →
      after.state.Learns later.state →
      ty' = ty ∨ (∃ sort, ty = .univ sort) ∧ ∃ sort, ty' = .univ sort
  | .var index, _, _, _, _, _, _, yields, again, context, _, _ => by
    simp only [infer, inferPhrase, inferVariable, yields_bind_iff, yields_get_iff,
      yields_lift_iff] at yields again
    obtain ⟨_, _, ⟨rfl, rfl⟩, found, _, ⟨isType, rfl⟩, yields⟩ := yields
    obtain ⟨_, _, ⟨rfl, rfl⟩, found', _, ⟨isType', rfl⟩, again⟩ := again
    rw [context, isType] at isType'
    obtain rfl := Except.ok.inj isType'
    cases found with
    | none => exact absurd yields not_yields_halt
    | some found =>
      exact .inl ((yields_pure_iff.1 again).1.symm.trans (yields_pure_iff.1 yields).1)
  | .const path, _, _, _, _, _, _, yields, again, _, _, learns => by
    simp only [infer, inferPhrase, inferConstant, yields_bind_iff, yields_get_iff] at yields again
    obtain ⟨_, _, ⟨rfl, rfl⟩, yields⟩ := yields
    obtain ⟨_, _, ⟨rfl, rfl⟩, again⟩ := again
    split at yields
    · rename_i definition found
      obtain ⟨rfl, rfl⟩ := yields_pure_iff.1 yields
      rw [learns.grows.signature, found] at again
      exact .inl (yields_pure_iff.1 again).1.symm
    · exact absurd yields not_yields_fail
  | .app function argument info, _, _, _, _, _, _, yields, again, context, fuel, learns => by
    obtain ⟨functionType, middle, name, domainInfo, domain, codomain, isFunction, isReduced, _,
      instantiated, consults⟩ := yields_infer_app yields
    obtain ⟨functionType', middle', name', domainInfo', domain', codomain', isFunction',
      isReduced', _, instantiated', _⟩ := yields_infer_app again
    have learnsMiddle := consults.learns.state.trans learns
    have consultsLater := (built_infer function).consults isFunction'
    have sameFuel : middle'.fuel = middle.fuel :=
      consultsLater.learns.fuel.trans
        (fuel.trans ((built_infer function).consults isFunction).learns.fuel.symm)
    have grows := (learnsMiddle.trans consultsLater.learns.state).grows
    have reducedAgain := reduce_of_retains grows.resolves.retains (by rfl) isReduced
    rcases infer_again isFunction isFunction' context fuel learnsMiddle with
      rfl | ⟨⟨sort, rfl⟩, _⟩
    · rw [← sameFuel, isReduced'] at reducedAgain
      cases reducedAgain
      exact .inl (Option.some.inj (instantiated'.symm.trans instantiated))
    · exact absurd isReduced reduce_univ_ne_pi
  | .pi name info domain codomain, _, _, _, _, _, _, yields, again, _, _, _ => by
    simp only [infer, inferPhrase, yields_bind_iff, yields_pure_iff] at yields again
    obtain ⟨sort, _, _, rfl, _⟩ := yields
    obtain ⟨sort', _, _, rfl, _⟩ := again
    exact .inr ⟨⟨sort, rfl⟩, sort', rfl⟩
  | .univ sort, _, _, _, _, _, _, yields, again, _, _, _ => by
    simp only [infer, inferPhrase, yields_bind_iff, yields_lift_iff,
      yields_pure_iff] at yields again
    obtain ⟨above, _, _, rfl, _⟩ := yields
    obtain ⟨above', _, _, rfl, _⟩ := again
    exact .inr ⟨⟨above, rfl⟩, above', rfl⟩
  | .level bound, _, _, _, _, _, _, yields, again, _, _, _ => by
    exact .inl ((yields_pure_iff.1 again).1.symm.trans (yields_pure_iff.1 yields).1)
  | .placeholder id arguments, _, _, _, _, _, _, yields, again, _, _, learns => by
    simp only [infer, inferPhrase, inferPlaceholder, yields_bind_iff,
      yields_get_iff] at yields again
    obtain ⟨_, _, ⟨rfl, rfl⟩, yields⟩ := yields
    obtain ⟨_, _, ⟨rfl, rfl⟩, again⟩ := again
    split at yields
    · rename_i scope ty solution found
      obtain ⟨substituted, rfl⟩ := yields_lift_iff.1 yields
      obtain ⟨solution', found', _⟩ := learns.grows.placeholders id _ found
      rw [found'] at again
      have substituted' := (yields_lift_iff.1 again).1
      exact .inl (Except.ok.inj (substituted'.symm.trans substituted))
    · exact absurd yields not_yields_halt

/-- A postulate whose type is left open is used as a set. -/
def usedAsSet : List Declaration :=
  [ .postulate "K" .hole,
    .postulate "k" (.const "K"),
    .postulate "G" (.arrow (.set 0) (.set 0)),
    .postulate "g" (.app (.const "G") [(.explicit, .const "K")]) ]

/-- A function at a type of levels is used at a type of sets. -/
def coercedLevel : List Declaration :=
  let family : Expr := .pi "A" { relevance := .irrelevant } (.set 1) (.set 1)
  let ofLevels : Expr := .arrow (.set 0) (.const "Level")
  [ .postulate "T" (.set 0),
    .function "identity" family ["A"] (some (.var "A")),
    .function "level" ofLevels ["X"] (some (.levelLit 0)),
    .function "coerce"
      (.pi "F" {} family (.arrow (.app (.var "F") [(.irrelevant, ofLevels)])
        (.app (.var "F") [(.irrelevant, .arrow (.set 0) (.set 0))])))
      ["F", "x"] (some (.var "x")) ]

/-- The type of a term is lost when it is normalised, although nothing is postponed: that of a sort
whose placeholder is solved, and that of an application whose function is used at two types that
differ in an irrelevant argument. -/
theorem types_lost_by_normalisation :
    (let checker := ((Call.check usedAsSet).computation.run (Checker.initial {} .patterns 40)).state
    let sort : Term := .univ (.sortPlaceholder 4 .noTerms)
    checker.state.constraints = [] ∧
      ((infer sort).run checker).result = .ok (.univ .omega) ∧
      Families.normalise checker.state 40 sort = .ok (.univ (Universe.ofNat 0)) ∧
      ((infer (.univ (Universe.ofNat 0))).run checker).result = .ok (.univ (Universe.ofNat 1)) ∧
      ((equalTerm (.univ .omega) (.univ (Universe.ofNat 1))).run checker).result =
        .error (.error (.conversion (.unequalSorts .omega (Universe.ofNat 1))))) ∧
    let checker :=
      ((Call.check coercedLevel).computation.run (Checker.initial {} .patterns 40)).state
    let coerced : Term :=
      .app (.app (.app (.const ⟨5⟩) (.const ⟨3⟩) {}) (.const ⟨4⟩) {}) (.const ⟨2⟩) {}
    checker.state.placeholders = [] ∧ checker.state.constraints = [] ∧
      ((infer coerced).run checker).result = .ok (.univ (Universe.ofNat 0)) ∧
      Families.normalise checker.state 40 coerced = .ok (.level (Level.ofNat 0)) ∧
      ((infer (.level (Level.ofNat 0))).run checker).result = .ok (.const Path.level) ∧
      ((equalTerm (.univ (Universe.ofNat 0)) (.const Path.level)).run checker).result =
        .error (.error (.conversion
          (.unequalTerms (.univ (Universe.ofNat 0)) (.const Path.level)))) := by
  decide +kernel

/-! ## Elaborated applications -/

/-- The application was checked in the scope: its function had a function type whose binder takes an
argument that is given in this way.  What was learned for it is still known. -/
def Vouches (last : Checker) (context : Context) (function : Term) (info : ArgInfo) : Prop :=
  ∃ before functionType after name domainInfo domain codomain,
    before.context = context ∧ before.fuel = last.fuel ∧
      Yields (infer function) before functionType after ∧
      Families.reduce after.state after.fuel functionType =
        .ok (.pi name domainInfo domain codomain) ∧
      domainInfo.plicity = info.plicity ∧ after.state.Learns last.state

/-- The argument is marked in a way in which it can be written. -/
def Written (info : ArgInfo) : Prop :=
  ∃ mode : ArgMode, info = mode.info

/-- Every application of the phrase was written and checked. -/
abbrev Vouched (last : Checker) {category : Category} (context : Context)
    (phrase : Phrase category) : Prop :=
  phrase.AllApplications (fun context function info =>
    Written info ∧ Vouches last context function info) context

section Vouched

variable {category : Category} {last later : Checker} {context : Context}
variable {phrase : Phrase category}

theorem Vouched.mono (vouched : Vouched last context phrase) (fuel : later.fuel = last.fuel)
    (learns : last.state.Learns later.state) : Vouched later context phrase := by
  refine Phrase.AllApplications.mono vouched ?_
  rintro _ _ _ ⟨written, before, functionType, after, name, domainInfo, domain, codomain, context,
    sameFuel, yields, reduced, same, learnsAfter⟩
  exact ⟨written, before, functionType, after, name, domainInfo, domain, codomain, context,
    sameFuel.trans fuel.symm, yields, reduced, same, learnsAfter.trans learns⟩

theorem Vouched.stays (vouched : Vouched last context phrase) (consults : last.Consults later) :
    Vouched later context phrase :=
  vouched.mono consults.learns.fuel consults.learns.state

/-- Inferring the type of a term applied to arguments checks these applications. -/
theorem vouched_applyTo {arguments : List (ArgInfo × Term)}
    (yields : Yields (infer (function.applyTo arguments)) before ty after)
    (vouched : Vouched before before.context function)
    (each : ∀ argument ∈ arguments,
      Written argument.1 ∧ Vouched before before.context argument.2) :
    Vouched after before.context (function.applyTo arguments) := by
  induction arguments using List.reverseRecOn generalizing ty after with
  | nil => exact Vouched.stays vouched ((built_infer _).consults yields)
  | append_singleton earlier argument ih =>
    rw [Phrase.applyTo_append] at yields ⊢
    have consultsAll := (built_infer _).consults yields
    obtain ⟨functionType, middle, name, domainInfo, domain, codomain, isFunction, isReduced, same,
      _, consults⟩ := yields_infer_app yields
    have rest := ih isFunction fun argument present =>
      each argument (List.mem_append_left _ present)
    obtain ⟨written, argumentVouched⟩ := each argument (by simp)
    refine ⟨⟨written, before, functionType, middle, name, domainInfo, domain, codomain, rfl,
      consultsAll.learns.fuel.symm, isFunction, isReduced, same, consults.learns.state⟩, ?_, ?_⟩
    · exact Vouched.stays rest consults
    · exact Vouched.stays argumentVouched consultsAll

end Vouched

theorem yields_asType {ty : Ty} (yields : Yields (asType term) before ty after) :
    ∃ sort, ty = .classified sort term := by
  simp only [asType, yields_bind_iff, yields_pure_iff] at yields
  obtain ⟨sort, _, _, rfl, _⟩ := yields
  exact ⟨sort, rfl⟩

theorem yields_asLevel {expression : Expr} {level : Level}
    (yields : Yields (asLevel expression term) before level after) : level = Level.ofTerm term := by
  cases expression with
  | levelLit | levelSuc | levelMax => exact (yields_pure_iff.1 yields).1.symm
  | _ =>
    simp only [asLevel, yields_bind_iff, yields_pure_iff] at yields
    obtain ⟨_, _, _, _, _, _, rfl, _⟩ := yields
    rfl

/-- A computation under a binder. -/
theorem yields_under_binder {α : Type} {body : CheckM α} {domain : Domain} {value : α}
    (yields : Yields (under [domain] body) before value after) :
    ∃ inner, Yields body { before with context := domain :: before.context } value inner ∧
      after.fuel = inner.fuel ∧ after.state = inner.state := by
  unfold under at yields
  rw [yields_restoreScope_iff] at yields
  obtain ⟨inner, yields, rfl⟩ := yields
  rw [yields_bind_iff] at yields
  obtain ⟨_, _, ⟨_, rfl⟩, isBody⟩ := yields
  exact ⟨inner, isBody, rfl, rfl⟩

theorem vouched_freshTerm (yields : Yields (freshTerm ty) before term after)
    (last : Checker) (context : Context) : Vouched last context term := by
  simp only [freshTerm, yields_bind_iff, yields_get_iff, yields_pure_iff] at yields
  obtain ⟨_, _, ⟨rfl, rfl⟩, id, _, _, rfl, _⟩ := yields
  exact Phrase.AllApplications.identity context _

/-- The applications of a function type whose codomain is elaborated under its binder. -/
theorem vouched_elaboratePi {text : String} {domainTerm : Term}
    {first second third fourth last : Checker} {domainExpression codomainExpression : Expr}
    (domainElaborated : ∀ {before after : Checker} {term : Term},
      Yields (elaborate domainExpression) before term after → Vouched after before.context term)
    (codomainElaborated : ∀ {before after : Checker} {term : Term},
      Yields (elaborate codomainExpression) before term after → Vouched after before.context term)
    (isName : Yields (enterName text) first name second)
    (isDomain : Yields (elaborate domainExpression) second domainTerm third)
    (isType : Yields (asType domainTerm) third domain fourth)
    (isCodomain : Yields
      (under [⟨name, info, domain⟩] do
        let codomain ← elaborate codomainExpression
        asType codomain)
      fourth codomain last) :
    Vouched last first.context (.pi name info domain codomain) := by
  have consultsName := (Built.enterName text).consults isName
  have consultsDomain := (built_elaborate domainExpression).consults isDomain
  have consultsType := (built_asType domainTerm).consults isType
  have consultsCodomain : fourth.Consults last := by
    refine (built_under _ ?_).consults isCodomain
    exact (built_elaborate codomainExpression).bind built_asType
  have domainVouched := Vouched.stays (domainElaborated isDomain)
    (consultsType.trans consultsCodomain)
  rw [consultsName.context] at domainVouched
  have sameContext : fourth.context = first.context :=
    consultsType.context.trans (consultsDomain.context.trans consultsName.context)
  obtain ⟨inner, isBody, fuel, state⟩ := yields_under_binder isCodomain
  rw [yields_bind_iff] at isBody
  obtain ⟨codomainTerm, middle, isTerm, isCodomainType⟩ := isBody
  have codomainVouched := Vouched.stays (codomainElaborated isTerm)
    ((built_asType codomainTerm).consults isCodomainType)
  obtain ⟨_, rfl⟩ := yields_asType isType
  obtain ⟨_, rfl⟩ := yields_asType isCodomainType
  refine ⟨domainVouched, ?_⟩
  rw [← sameContext]
  have later : Vouched last _ codomainTerm := Vouched.mono codomainVouched fuel (state ▸ .refl _)
  exact later

mutual

/-- Every application of an elaborated term was written and checked. -/
theorem vouched_elaborate :
    ∀ (expression : Expr) {before after : Checker} {term : Term},
      Yields (elaborate expression) before term after → Vouched after before.context term
  | .var name, _, _, _, yields => by
    simp only [elaborate, resolveVariable, yields_bind_iff, yields_get_iff] at yields
    obtain ⟨_, _, _, _, _, ⟨rfl, rfl⟩, yields⟩ := yields
    split at yields
    · obtain ⟨rfl, rfl⟩ := yields_pure_iff.1 yields
      trivial
    · exact absurd yields not_yields_fail
  | .const name, _, _, _, yields => by
    simp only [elaborate, resolveConstant, yields_bind_iff, yields_get_iff] at yields
    obtain ⟨_, _, _, _, _, ⟨rfl, rfl⟩, yields⟩ := yields
    split at yields
    · obtain ⟨rfl, rfl⟩ := yields_pure_iff.1 yields
      trivial
    · exact absurd yields not_yields_fail
  | .app function arguments, before, after, _, yields => by
    simp only [elaborate, yields_bind_iff, yields_pure_iff] at yields
    obtain ⟨function', second, isFunction, _, third, isApplied, _, _, isChecked, rfl, rfl⟩ := yields
    have vouched := vouched_elaborate function isFunction
    have consults := (built_elaborate function).consults isFunction
    have consults' := (built_elaborateArguments arguments function').consults isApplied
    obtain ⟨applied, rfl, each⟩ := vouched_elaborateArguments arguments isApplied
    have context : third.context = before.context := consults'.context.trans consults.context
    rw [consults.context] at each
    rw [← context] at vouched each ⊢
    exact vouched_applyTo isChecked (Vouched.stays vouched consults') each
  | .pi name info domain codomain, _, _, _, yields => by
    simp only [elaborate, yields_bind_iff, yields_pure_iff] at yields
    obtain ⟨name, second, isName, domain', third, isDomain, ty, fourth, isType, codomain', _,
      isCodomain, rfl, rfl⟩ := yields
    exact vouched_elaboratePi (vouched_elaborate domain) (vouched_elaborate codomain) isName
      isDomain isType isCodomain
  | .arrow domain codomain, _, _, _, yields => by
    simp only [elaborate, yields_bind_iff, yields_pure_iff] at yields
    obtain ⟨name, second, isName, domain', third, isDomain, ty, fourth, isType, codomain', _,
      isCodomain, rfl, rfl⟩ := yields
    exact vouched_elaboratePi (vouched_elaborate domain) (vouched_elaborate codomain) isName
      isDomain isType isCodomain
  | .set level, _, _, _, yields => by
    rw [elaborate, yields_pure_iff] at yields
    exact yields.1 ▸ trivial
  | .setAt level, before, after, _, yields => by
    simp only [elaborate, yields_bind_iff, yields_pure_iff] at yields
    obtain ⟨term, second, isTerm, bound, _, isLevel, rfl, rfl⟩ := yields
    have vouched := Vouched.stays (vouched_elaborate level isTerm)
      ((built_asLevel level term).consults isLevel)
    rw [yields_asLevel isLevel]
    exact Phrase.AllApplications.ofTerm vouched
  | .prop, _, _, _, yields => by
    rw [elaborate, yields_pure_iff] at yields
    exact yields.1 ▸ trivial
  | .setOmega, _, _, _, yields => by
    rw [elaborate, yields_pure_iff] at yields
    exact yields.1 ▸ trivial
  | .sizeUniv, _, _, _, yields => by
    rw [elaborate, yields_pure_iff] at yields
    exact yields.1 ▸ trivial
  | .levelLit level, _, _, _, yields => by
    rw [elaborate, yields_pure_iff] at yields
    exact yields.1 ▸ trivial
  | .levelSuc level, _, _, _, yields => by
    simp only [elaborate, yields_bind_iff, yields_lift_iff, checked_eq_ok_iff,
      yields_pure_iff] at yields
    obtain ⟨term, second, isTerm, bound, third, isLevel, next, _, ⟨succeeded, rfl⟩, rfl, rfl⟩ :=
      yields
    have vouched := Vouched.stays (vouched_elaborate level isTerm)
      ((built_asLevel level term).consults isLevel)
    rw [yields_asLevel isLevel] at succeeded
    exact Phrase.AllApplications.succ? (Phrase.AllApplications.ofTerm vouched) succeeded
  | .levelMax left right, before, _, _, yields => by
    simp only [elaborate, yields_bind_iff, yields_pure_iff] at yields
    obtain ⟨leftTerm, second, isLeft, leftLevel, third, isLeftLevel, rightTerm, fourth, isRight,
      rightLevel, _, isRightLevel, rfl, rfl⟩ := yields
    have consultsLeft := (built_elaborate left).consults isLeft
    have consultsLevel := (built_asLevel left leftTerm).consults isLeftLevel
    have consultsRight := ((built_elaborate right).consults isRight).trans
      ((built_asLevel right rightTerm).consults isRightLevel)
    have leftVouched := Vouched.stays (vouched_elaborate left isLeft)
      (consultsLevel.trans consultsRight)
    have rightVouched := Vouched.stays (vouched_elaborate right isRight)
      ((built_asLevel right rightTerm).consults isRightLevel)
    rw [consultsLevel.context, consultsLeft.context] at rightVouched
    rw [yields_asLevel isLeftLevel, yields_asLevel isRightLevel]
    exact Phrase.AllApplications.join (Phrase.AllApplications.ofTerm leftVouched)
      (Phrase.AllApplications.ofTerm rightVouched)
  | .hole, _, _, _, yields => by
    simp only [elaborate, freshHole, yields_bind_iff] at yields
    obtain ⟨_, _, _, ty, _, _, isTerm⟩ := yields
    exact vouched_freshTerm isTerm _ _

/-- The arguments of an application are elaborated one by one. -/
theorem vouched_elaborateArguments :
    ∀ (arguments : List (ArgMode × Expr)) {function term : Term} {before after : Checker},
      Yields (elaborateArguments function arguments) before term after →
      ∃ applied, term = function.applyTo applied ∧
        ∀ argument ∈ applied, Written argument.1 ∧ Vouched after before.context argument.2
  | [], _, _, _, _, yields => by
    rw [elaborateArguments, yields_pure_iff] at yields
    exact ⟨[], yields.1.symm, by simp⟩
  | (mode, argument) :: arguments, _, _, before, after, yields => by
    rw [elaborateArguments, yields_bind_iff] at yields
    obtain ⟨argument', middle, isArgument, yields⟩ := yields
    obtain ⟨applied, rfl, each⟩ := vouched_elaborateArguments arguments yields
    have consults := (built_elaborate argument).consults isArgument
    have vouched := Vouched.stays (vouched_elaborate argument isArgument)
      ((built_elaborateArguments arguments _).consults yields)
    rw [consults.context] at each
    exact ⟨(mode.info, argument') :: applied, rfl,
      List.forall_mem_cons.2 ⟨⟨⟨mode, rfl⟩, vouched⟩, each⟩⟩

end

/-- Every application of an elaborated term was written and checked: its function had a function
type, whose binder takes an argument that is given in this way.  Whenever the type of the function
is inferred afterwards and reduces to a function type, its binder does so too. -/
theorem elaborated_applications_agree
    {expression : Expr}
    {checker last : Checker}
    {term : Term}
    (elaborated : Yields (elaborate expression) checker term last) :
    term.AllApplications (fun context function info =>
      Written info ∧ Vouches last context function info ∧
        ∀ functionType after name domainInfo domain codomain,
          Yields (infer function) { last with context } functionType after →
          Families.reduce after.state after.fuel functionType =
            .ok (.pi name domainInfo domain codomain) →
          domainInfo.plicity = info.plicity) checker.context := by
  refine Phrase.AllApplications.mono (vouched_elaborate expression elaborated) ?_
  rintro context function info ⟨written, vouches⟩
  refine ⟨written, vouches, ?_⟩
  intro functionType' after' name' domainInfo' domain' codomain' isFunction' isReduced'
  obtain ⟨before, functionType, after, name, domainInfo, domain, codomain, sameContext, fuel,
    isFunction, isReduced, same, learns⟩ := vouches
  have consults := (built_infer function).consults isFunction
  have consults' := (built_infer function).consults isFunction'
  have sameFuel : after'.fuel = after.fuel :=
    consults'.learns.fuel.trans (fuel.symm.trans consults.learns.fuel.symm)
  have reducedAgain := reduce_of_retains
    (learns.trans consults'.learns.state).grows.resolves.retains (by rfl) isReduced
  rcases infer_again isFunction isFunction' sameContext.symm fuel.symm learns with
    rfl | ⟨⟨sort, rfl⟩, _⟩
  · rw [← sameFuel, isReduced'] at reducedAgain
    cases reducedAgain
    exact same
  · exact absurd isReduced reduce_univ_ne_pi

/-- An application to an implicit and an explicit argument under a binder. -/
theorem elaborated_applications_agree_under_binder :
    let family : Expr := .pi "A" { plicity := .implicit } (.set 0) (.arrow (.var "A") (.set 0))
    let declared := (Call.check [.postulate "T" (.set 0), .postulate "F" family]).computation.run
      (Checker.initial {} .patterns 30)
    let applied : Expr := .app (.const "F") [(.implicit, .const "T"), (.explicit, .var "x")]
    let elaborated := (elaborate (.pi "x" {} (.const "T") applied)).run declared.state
    let domain : Domain := ⟨⟨6⟩, {}, .classified (Universe.ofNat 0) (.const ⟨2⟩)⟩
    let function : Term := .app (.const ⟨3⟩) (.const ⟨2⟩) { plicity := .implicit }
    elaborated.result = .ok (.pi domain.name domain.info domain.ty
        (.classified (Universe.ofNat 0) (.app function (.var 0) {}))) ∧
      Vouches elaborated.state [domain] function {} ∧
      Vouches elaborated.state [domain] (.const ⟨3⟩) { plicity := .implicit } ∧
      ∀ functionType after name domainInfo domain' codomain,
        Yields (infer function) { elaborated.state with context := [domain] } functionType after →
        Families.reduce after.state after.fuel functionType =
          .ok (.pi name domainInfo domain' codomain) →
        domainInfo.plicity = .explicit := by
  intro family declared applied elaborated domain function
  have answered : elaborated.result = .ok (.pi domain.name domain.info domain.ty
      (.classified (Universe.ofNat 0) (.app function (.var 0) {}))) := by decide +kernel
  have agree : ∀ {checker last : Checker}, checker.context = [] →
      Yields (elaborate (.pi "x" {} (.const "T") applied)) checker
        (.pi domain.name domain.info domain.ty
          (.classified (Universe.ofNat 0) (.app function (.var 0) {}))) last →
      Vouches last [domain] function {} ∧
        Vouches last [domain] (.const ⟨3⟩) { plicity := .implicit } ∧
        ∀ functionType after name domainInfo domain' codomain,
          Yields (infer function) { last with context := [domain] } functionType after →
          Families.reduce after.state after.fuel functionType =
            .ok (.pi name domainInfo domain' codomain) →
          domainInfo.plicity = .explicit := by
    intro checker last context yields
    obtain ⟨_, ⟨_, vouches, again⟩, ⟨⟨_, vouches', _⟩, _⟩, _⟩ :=
      elaborated_applications_agree yields
    rw [context] at vouches vouches' again
    exact ⟨vouches, vouches', again⟩
  exact ⟨answered, agree (by decide +kernel) (Yields.of_result answered)⟩

/-- An argument for an irrelevant binder that is written like any other is marked as relevant, and
an argument for a relevant binder may be marked as irrelevant. -/
theorem relevance_of_binder_ignored :
    let types : List Declaration := [.postulate "T" (.set 0), .postulate "c" (.const "T"),
      .postulate "F" (.pi "x" { relevance := .irrelevant } (.const "T") (.set 0)),
      .postulate "G" (.pi "x" {} (.const "T") (.set 0))]
    let declared := (Call.check types).computation.run (Checker.initial {} .patterns 30)
    let domain : Ty := .classified (Universe.ofNat 0) (.const ⟨2⟩)
    let codomain : Ty := .classified (Universe.ofNat 1) (.univ (Universe.ofNat 0))
    ((elaborate (.app (.const "F") [(.explicit, .const "c")])).run declared.state).result =
        .ok (.app (.const ⟨4⟩) (.const ⟨3⟩) {}) ∧
      ((infer (.const ⟨4⟩)).run declared.state).result =
        .ok (.pi ⟨5⟩ { relevance := .irrelevant } domain codomain) ∧
      ((elaborate (.app (.const "G") [(.irrelevant, .const "c")])).run declared.state).result =
        .ok (.app (.const ⟨5⟩) (.const ⟨3⟩) { relevance := .irrelevant }) ∧
      ((infer (.const ⟨5⟩)).run declared.state).result = .ok (.pi ⟨5⟩ {} domain codomain) := by
  decide +kernel

end CheckM

end Families
