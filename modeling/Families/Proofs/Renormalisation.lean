import Families.Proofs.Completeness
import Families.Proofs.History

/-!
# Normalising early

Solutions, bodies of functions, types of constructors and sorts of datatypes are stored in the form
that they had when they were normalised.  Whatever is called afterwards, normalising such a form
again gives what normalising the original phrase would have given.  A normal form holds nothing that
can be unfolded, its levels are canonical, and normalising it once more returns it.
-/

namespace Families

open Filter

variable {category : Category} {phrase result : Phrase category} {depth : Nat}

/-! ## Later checkers -/

/-- One checker is reached from another by calls on arguments of the scope. -/
inductive Reaches (start : Checker) : Checker → Prop where
  | refl : Reaches start start
  | binds {checker : Checker} {domain : Domain} (reaches : Reaches start checker)
      (inScope : checker.InScope domain.ty) :
      Reaches start { checker with context := domain :: checker.context }
  | leaves {checker : Checker} (reaches : Reaches start checker) (count : Nat) :
      Reaches start { checker with context := checker.context.truncate count }
  | ends {α : Type} {checker : Checker} (reaches : Reaches start checker) (call : Call α)
      (accepts : call.Accepts checker) :
      Reaches start (call.computation.run checker).state

theorem Reaches.reachable {start checker : Checker} (reaches : Reaches start checker)
    (reachable : Reachable start) : Reachable checker := by
  induction reaches with
  | refl => exact reachable
  | binds _ inScope ih => exact .binds ih inScope
  | leaves _ count ih => exact .leaves ih count
  | ends _ call accepts ih => exact .ends ih call accepts

/-- What was learned without a new declaration continues what was known. -/
theorem State.Learns.continues {before after : State} (learns : before.Learns after) :
    before.Continues after where
  entries path entry found := ⟨entry, learns.grows.signature ▸ found, .inl rfl⟩
  remembers := learns.grows.remembers
  instances datatype := by
    rw [State.instancesOf, State.instancesOf, learns.instances]

/-- Whatever is called, all that was known stays known. -/
theorem Call.continues {α : Type} {checker : Checker} (call : Call α)
    (keyed : checker.state.signature.Keyed) :
    checker.state.Continues (call.computation.run checker).state.state := by
  have queried := fun query =>
    ((call.built query).consulting checker).follows.learns.state.continues
  cases call with
  | declare declaration =>
    exact ((CheckM.continuing_checkDeclaration declaration checker).follows keyed).2
  | check declarations =>
    have continues := CheckM.continues_append keyed [] declarations
    rwa [List.nil_append, CheckM.state_checkDeclarations []] at continues
  | _ => exact queried trivial

theorem Reaches.continues {start checker : Checker} (reaches : Reaches start checker)
    (reachable : Reachable start) : start.state.Continues checker.state := by
  induction reaches with
  | refl => exact .refl _
  | binds _ _ ih => exact ih
  | leaves _ _ ih => exact ih
  | ends reaches call _ ih =>
    exact ih.trans (call.continues (reaches.reachable reachable).keyed)

/-- A phrase of a scope stays in scope. -/
theorem State.Remembers.scoped {before after : State} (remembers : before.Remembers after)
    (inScope : phrase.Scoped before.Fits depth) : phrase.Scoped after.Fits depth := by
  refine inScope.mono (fun fits => ?_) le_rfl
  cases fits with
  | term found =>
    obtain ⟨solution, foundLater, _⟩ := remembers.placeholders _ _ found
    exact .term foundLater
  | sort found =>
    obtain ⟨solution, foundLater, _⟩ := remembers.placeholders _ _ found
    exact .sort foundLater

/-! ## Normal phrases -/

section Normal

variable {state : State} {category : Category}

/-- Reduction leaves a normal phrase and its atoms as they are. -/
theorem IsNormal.inert_and_atoms (isNormal : IsNormal state phrase) :
    Inert state phrase ∧ ∀ atom ∈ phrase.atomList, Inert state atom.term := by
  induction phrase with
  | const path => exact ⟨.stops isNormal, by simp [Phrase.atomList]⟩
  | app => exact ⟨.stops isNormal.1, by simp [Phrase.atomList]⟩
  | placeholder id arguments =>
    refine ⟨.stops ?_, by simp [Phrase.atomList]⟩
    have unsolved : state.solution? id = none := isNormal.1
    exact unfoldHead?_eq_none_iff.2 (by simp [Phrase.head, unsolved])
  | sortPlaceholder id arguments =>
    refine ⟨.stops fun solution solved => ?_, by simp [Phrase.atomList]⟩
    have unsolved : state.solution? id = none := isNormal.1
    cases unsolved.symm.trans solved
  | univ sort ih =>
    exact ⟨.univ (ih isNormal).1, by simp [Phrase.atomList]⟩
  | level bound ih =>
    exact ⟨.level (ih isNormal).1, by simp [Phrase.atomList]⟩
  | set bound ih =>
    exact ⟨.set (ih isNormal).1, by simp [Phrase.atomList]⟩
  | lub constant atoms ih =>
    obtain ⟨canonical, noLevels, atomsNormal⟩ := isNormal
    exact ⟨.lub canonical noLevels (ih atomsNormal).2, by simp [Phrase.atomList]⟩
  | atom term offset rest ihTerm ihRest =>
    refine ⟨.stops trivial, ?_⟩
    rw [Phrase.atomList_atom, List.forall_mem_cons]
    exact ⟨(ihTerm isNormal.1).1, (ihRest isNormal.2).2⟩
  | var | pi => exact ⟨.stops rfl, by simp [Phrase.atomList]⟩
  | _ => exact ⟨.stops trivial, by simp [Phrase.atomList]⟩

/-- A canonical level is its own canonical form. -/
theorem Level.canonical_eq_self {constant : Nat} {atoms : Phrase .atoms}
    (canonical : Canonical (.lub constant atoms)) :
    Level.canonical constant atoms.atomList = .lub constant atoms := by
  refine (canonical_canonical _ _).eq_of_eval_eq canonical fun value => ?_
  refine eq_of_forall_ge_iff fun bound => ?_
  rw [eval_canonical_le_iff, eval_le_iff]
  rfl

/-- With enough fuel normalisation returns a normal phrase. -/
theorem IsNormal.eventually_normalise (isNormal : IsNormal state phrase) :
    ∀ᶠ fuel in atTop, normalise state fuel phrase = .ok phrase := by
  -- Reduction returns the phrase, which is then rebuilt from its parts.
  have rebuilds {category : Category} {phrase : Phrase category} (isNormal : IsNormal state phrase)
      (rebuilt : ∀ᶠ fuel in atTop, Rebuilds state fuel phrase phrase) :
      ∀ᶠ fuel in atTop, normalise state fuel phrase = .ok phrase := by
    refine eventually_of_succ ?_
    filter_upwards [isNormal.inert_and_atoms.1.eventually_reduce, rebuilt] with
      fuel reduced rebuilt
    exact normalise_eq_ok_iff.2 ⟨phrase, reduced, rebuilt⟩
  induction phrase with
  | app function argument info ihFunction ihArgument =>
    exact rebuilds isNormal
      ((ihFunction isNormal.2.1).mp ((ihArgument isNormal.2.2).mono fun _ done => (.app · done)))
  | pi _ _ _ _ ihFirst ihSecond | classified _ _ ihFirst ihSecond
  | atom _ _ _ ihFirst ihSecond | terms _ _ ihFirst ihSecond =>
    refine rebuilds isNormal ?_
    filter_upwards [ihFirst isNormal.1, ihSecond isNormal.2] with fuel firstDone secondDone
    constructor <;> assumption
  | univ _ ih | level _ ih | set _ ih =>
    refine rebuilds isNormal ((ih isNormal).mono fun _ done => ?_)
    constructor
    exact done
  | placeholder _ _ ih => exact rebuilds isNormal ((ih isNormal.2).mono fun _ => .placeholder)
  | sortPlaceholder _ _ ih =>
    exact rebuilds isNormal ((ih isNormal.2).mono fun _ => .sortPlaceholder)
  | lub constant atoms ih =>
    refine rebuilds isNormal ((ih isNormal.2.2).mono fun fuel done => ?_)
    have rebuilt : Rebuilds state fuel (.lub constant atoms) _ := .lub done
    rwa [Level.canonical_eq_self isNormal.1] at rebuilt
  | _ => exact rebuilds isNormal (.of_forall fun _ => by constructor)

end Normal

/-! ## Early and late -/

/-- Normalising early does not change what is normalised later, whatever was called meanwhile.  The
early form is normal, and normalising it once more returns it. -/
theorem normalise_early
    {checker later : Checker}
    {category : Category}
    {phrase early : Phrase category}
    {depth fuel : Nat}
    (reachable : Reachable checker)
    (reaches : Reaches checker later)
    (inScope : phrase.Scoped checker.state.Fits depth)
    (normalised : normalise checker.state fuel phrase = .ok early) :
    (∀ fuel fuel' late direct, normalise later.state fuel early = .ok late →
      normalise later.state fuel' phrase = .ok direct → late = direct) ∧
      IsNormal checker.state early ∧
      ∀ᶠ fuel in atTop, normalise checker.state fuel early = .ok early := by
  have wellScoped := reachable.wellScoped.state
  have continues := reaches.continues reachable
  have laterWellScoped := (reaches.reachable reachable).wellScoped.state
  obtain ⟨normalises, earlyInScope⟩ := normalises_of_normalise wellScoped normalised inScope
  refine ⟨?_, normalises.isNormal, normalises.isNormal.eventually_normalise⟩
  intro fuel fuel' late direct isLate isDirect
  have phraseLater := continues.remembers.scoped inScope
  have earlyLater := continues.remembers.scoped earlyInScope
  have hasDirect :=
    (normalises_of_normalise laterWellScoped isDirect phraseLater).1.hasNormalForm
  have hasLate := (normalises_of_normalise laterWellScoped isLate earlyLater).1.hasNormalForm
  exact hasLate.deterministic
    (hasDirect.of_rewrites (normalises.rewrites.mono continues.preserves.toRetains))

/-- A level within a level is flattened early, and a placeholder in it is solved later. -/
theorem normalise_early_level :
    let opened := (Call.freshTerm (.const Path.level)).computation.run
      (Checker.initial {} .patterns 20)
    let solved :=
      (Call.equalTerm (.placeholder 0 .noTerms) (.level (Level.ofNat 2))).computation.run
      opened.state
    let inner : Term := .level (.lub 0 (.atom (.placeholder 0 .noTerms) 0 .noAtoms))
    let sort : Universe := .set (.lub 1 (.atom inner 0 .noAtoms))
    let early : Universe := .set (.lub 1 (.atom (.placeholder 0 .noTerms) 0 .noAtoms))
    Reachable opened.state ∧ Reaches opened.state solved.state ∧
      normalise opened.state.state 20 sort = .ok early ∧ IsNormal opened.state.state early ∧
      normalise solved.state.state 20 early = .ok (Universe.ofNat 2) ∧
      normalise solved.state.state 20 sort = .ok (Universe.ofNat 2) := by
  intro opened solved inner sort early
  have reachable : Reachable opened.state :=
    .ends (.initial {} .patterns 20) (.freshTerm (.const Path.level)) trivial
  have accepts : (Call.equalTerm (.placeholder 0 .noTerms) (.level (Level.ofNat 2))).Accepts
      opened.state :=
    ⟨⟨.term rfl, trivial⟩, trivial⟩
  have reaches : Reaches opened.state solved.state := .ends .refl _ accepts
  have inScope : sort.Scoped opened.state.state.Fits 0 :=
    ⟨⟨⟨.term rfl, trivial⟩, trivial⟩, trivial⟩
  have isEarly : normalise opened.state.state 20 sort = .ok early := by decide +kernel
  obtain ⟨agree, isNormal, _⟩ := normalise_early reachable reaches inScope isEarly
  have isLate : normalise solved.state.state 20 early = .ok (Universe.ofNat 2) := by decide +kernel
  have isDirect : ∃ direct, normalise solved.state.state 20 sort = .ok direct :=
    ⟨Universe.ofNat 2, by decide +kernel⟩
  obtain ⟨direct, isDirect⟩ := isDirect
  exact ⟨reachable, reaches, isEarly, isNormal, isLate, agree _ _ _ _ isLate isDirect ▸ isDirect⟩

end Families
