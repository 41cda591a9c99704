import Families.Proofs.Workings

/-!
# Acyclic solutions

Comparisons keep the placeholders ordered, whatever they compare.  As long as no number stands for a
term here and for a sort there, the solutions that comparisons find do not depend on each other in a
circle.
-/

namespace Families

variable {admitted : Category → Nat → Prop} {state : State} {arguments : Phrase .terms}

namespace State

/-- The placeholders can be ranked. -/
def Orderable (admitted : Category → Nat → Prop) (state : State) : Prop :=
  ∃ rank, state.Ordered admitted rank

theorem Orderable.supplies (orderable : state.Orderable admitted) : state.Supplies admitted := by
  obtain ⟨rank, ordered⟩ := orderable
  exact ordered.supplies

end State

/-! ## Comparisons -/

namespace ConvM

/-- Comparisons pass states whose placeholders can be ranked.  They may stop at any fault. -/
def ordering (admitted : Category → Nat → Prop) : Discipline State where
  Good := State.Orderable admitted
  Passes _ _ := True
  Follows _ _ := True
  Allows _ := True
  refl _ := trivial
  trans _ _ := trivial
  passes _ _ := trivial

/-- From the given state the comparison keeps the placeholders ordered. -/
abbrev Orderly (admitted : Category → Nat → Prop) (comparison : ConvM Unit) (state : State) :
    Prop :=
  Respects (ordering admitted) comparison state fun _ _ => True

variable {admitted : Category → Nat → Prop} {state : State} {fuel depth id : Nat}

theorem orderly_postpone (comparison : Comparison) (orderable : state.Orderable admitted) :
    Orderly admitted (postpone depth comparison) state := by
  obtain ⟨rank, ordered⟩ := orderable
  exact .modify ⟨rank, ordered.congr rfl fun _ => rfl⟩ trivial trivial trivial

theorem orderly_solve {category : Category} {pattern : List Nat} {value : Phrase category}
    {solution : Phrase category → Solution} (orderable : state.Orderable admitted)
    (isAdmitted : ∀ inverted, admitted (solution inverted).category id)
    (kept : ∀ {inverted admitted'}, inverted.Uses admitted' →
      (solution inverted).phrase.Uses admitted')
    (uses : value.Uses admitted) :
    Orderly admitted (solve fuel id pattern value solution) state := by
  refine .get_bind (.lift_bind orderable (faultless_normalise _ _ _) fun normalised reached => ?_)
  obtain ⟨bound, inScope⟩ := orderable.supplies.normalise reached uses
  split
  · exact .fail orderable
  · rename_i avoids
    split
    · exact .fail orderable
    · rename_i inverted isInverse
      have avoids : normalised.mentions id = false := by simpa using avoids
      have invertedUses : inverted.Uses fun kind other =>
          (admitted kind other ∧ ¬state.Solved kind other) ∧ other ≠ id :=
        ⟨pattern.length, (inScope.avoids avoids).invert isInverse⟩
      cases succeeded : state.solve id (solution inverted) with
      | error reason => exact .of_unchanged rfl orderable (by simp) fun _ _ => trivial
      | ok after =>
        obtain ⟨rank, ordered⟩ := orderable
        exact .set ⟨_, ordered.solve succeeded (isAdmitted inverted) (kept invertedUses)⟩
          trivial trivial trivial

theorem obeys_ordering :
    (Scene.usage (State.Orderable admitted) admitted).Obeys (ordering admitted) where
  good := id
  postpone comparison _ orderable := orderly_postpone comparison orderable
  solveTerm := by
    rintro _ _ _ _ _ _ _ orderable ⟨_, isAdmitted, _⟩ uses
    exact orderly_solve orderable (fun _ => isAdmitted) (fun uses => uses) uses
  solveSort := by
    rintro _ _ _ _ _ _ _ orderable ⟨_, isAdmitted, _⟩ uses _ _
    exact orderly_solve orderable (fun _ => isAdmitted) (fun uses => uses) uses

end ConvM

/-! ## States that comparisons lead to -/

/-- A comparison that can be asked for. -/
inductive Request where
  | equalTerm (left right : Term)
  | equalType (left right : Ty)
  | equalSort (left right : Universe)
  | leqSort (left right : Universe)

namespace Request

/-- What is computed to answer a request. -/
def computation (fuel depth : Nat) : Request → ConvM Unit
  | equalTerm left right => ConvM.equalTerm fuel depth left right
  | equalType left right => ConvM.equalType fuel depth left right
  | equalSort left right => ConvM.equalSort fuel depth left right
  | leqSort left right => ConvM.leqSort fuel depth left right

/-- Both sides use admitted placeholders only. -/
def Uses (admitted : Category → Nat → Prop) : Request → Prop
  | equalTerm left right => left.Uses admitted ∧ right.Uses admitted
  | equalType left right => left.Uses admitted ∧ right.Uses admitted
  | equalSort left right => left.Uses admitted ∧ right.Uses admitted
  | leqSort left right => left.Uses admitted ∧ right.Uses admitted

theorem orderly {request : Request} {fuel depth : Nat} (orderable : state.Orderable admitted)
    (uses : request.Uses admitted) :
    ConvM.Orderly admitted (request.computation fuel depth) state := by
  have lawful := ConvM.Scene.lawful_usage (@State.Orderable.supplies admitted)
  suffices compares : ConvM.Compares _ (request.computation fuel depth) state from
    compares.respects ConvM.obeys_ordering orderable
  cases request with
  | equalTerm left right =>
    exact ConvM.compares_equalTerm lawful trivial orderable uses.1 uses.2
  | equalType left right =>
    obtain ⟨⟨_, leftInScope⟩, _, rightInScope⟩ := uses
    exact ConvM.compares_equalTerm lawful trivial orderable ⟨_, leftInScope.term⟩
      ⟨_, rightInScope.term⟩
  | equalSort left right =>
    exact ConvM.compares_equalSort lawful trivial orderable uses.1 uses.2
  | leqSort left right => exact ConvM.compares_leqSort lawful orderable uses.1 uses.2

end Request

/-- New placeholders and comparisons lead to the state from one without placeholders.  What is
compared and the bodies of functions use admitted placeholders only, and are not restricted
otherwise. -/
inductive Arises (admitted : Category → Nat → Prop) : State → Prop where
  | fresh {state : State} (empty : state.placeholders = [])
      (bodies : ∀ {path arity body}, state.signature.body? path = some (arity, body) →
        body.Uses admitted) :
      Arises admitted state
  | adds {state : State} (arises : Arises admitted state) (scope : Nat) (kind : PlaceholderKind) :
      Arises admitted (state.addPlaceholder scope kind)
  | passes {state later : State} (arises : Arises admitted state) (request : Request)
      (uses : request.Uses admitted) (fuel depth : Nat)
      (passed : later ∈ ((request.computation fuel depth).run state).passed) :
      Arises admitted later
  | ends {state : State} (arises : Arises admitted state) (request : Request)
      (uses : request.Uses admitted) (fuel depth : Nat) :
      Arises admitted ((request.computation fuel depth).run state).state

theorem State.solution?_addPlaceholder (state : State) (scope : Nat) (kind : PlaceholderKind)
    (id : Nat) : (state.addPlaceholder scope kind).solution? id = state.solution? id := by
  unfold solution? addPlaceholder
  rcases lt_trichotomy id state.placeholders.length with old | rfl | beyond
  · simp [List.getElem?_append_left old]
  · simp
  · have noPlaceholder : state.placeholders[id]? = none := List.getElem?_eq_none beyond.le
    have stillNone : (state.placeholders ++ [⟨scope, kind, none⟩])[id]? = none :=
      List.getElem?_eq_none (by simpa using beyond)
    rw [noPlaceholder, stillNone]

/-- The placeholders of a state that comparisons lead to can be ranked. -/
theorem Arises.orderable (arises : Arises admitted state) : state.Orderable admitted := by
  induction arises with
  | fresh empty bodies =>
    refine ⟨fun _ => 0, State.ordered_of_unsolved (fun id => ?_) bodies⟩
    simp [State.solution?, empty]
  | @adds state _ scope kind ih =>
    obtain ⟨rank, ordered⟩ := ih
    exact ⟨rank, ordered.congr rfl (state.solution?_addPlaceholder scope kind)⟩
  | passes _ request uses fuel depth passed ih =>
    exact ((Request.orderly ih uses).passed _ passed).1
  | ends _ request uses fuel depth ih =>
    exact (Request.orderly ih uses).good

/-! ## Circles -/

namespace State

variable {state : State} {admitted : Category → Nat → Prop} {rank : Nat → Nat}

/-- The second placeholder occurs in the solution of the first. -/
def Depends (state : State) (id other : Nat) : Prop :=
  ∃ solution, state.solution? id = some solution ∧ solution.phrase.mentions other

/-- A placeholder ranks above those that it depends on and that have solutions themselves. -/
theorem Ordered.rank_lt {id other : Nat} {solution : Solution}
    (ordered : state.Ordered admitted rank)
    (oneKind : ∀ {kind kind' id}, admitted kind id → admitted kind' id → kind = kind')
    (depends : state.Depends id other) (solved : state.solution? other = some solution) :
    rank other < rank id := by
  obtain ⟨dependent, found, mentioned⟩ := depends
  obtain ⟨depth, inScope⟩ := ordered.solutions found
  obtain ⟨kind, _, isAdmitted, lower⟩ := inScope.of_mentions mentioned
  exact lower ⟨solution, solved, oneKind (ordered.solved solved) isAdmitted⟩

/-- Placeholders of one kind each do not depend on each other in a circle. -/
theorem Ordered.acyclic (ordered : state.Ordered admitted rank)
    (oneKind : ∀ {kind kind' id}, admitted kind id → admitted kind' id → kind = kind') (id : Nat) :
    ¬Relation.TransGen state.Depends id id := by
  -- On a circle every placeholder depends on another one, so that it has a solution.
  have descends : ∀ {first last solution}, Relation.TransGen state.Depends first last →
      state.solution? last = some solution → rank last < rank first := by
    intro first last solution path solved
    induction path generalizing solution with
    | single depends => exact ordered.rank_lt oneKind depends solved
    | tail _ depends ih =>
      have lower := ordered.rank_lt oneKind depends solved
      obtain ⟨_, found, _⟩ := depends
      exact lower.trans (ih found)
  intro circle
  obtain ⟨next, ⟨solution, solved, _⟩, _⟩ := Relation.TransGen.head'_iff.1 circle
  exact absurd (descends circle solved) (Nat.lt_irrefl _)

end State

end Families
