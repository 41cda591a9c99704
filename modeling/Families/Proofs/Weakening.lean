import Families.Proofs.Holes
import Families.Proofs.Targets
import Families.Proofs.Tracking

/-!
# Weakening

Where there are no placeholders, inference in a scope with one more variable follows inference in
the scope without it.  It makes the same comparisons, on lifted terms, and ends alike: with the
lifted type, with an error, or with a halt.  Only an index that leaves the range of words stops it
alone.
-/

namespace Families

variable {targets : Nat → Nat}
variable {category : Category} {phrase : Phrase category} {index : Nat} {α β ε : Type}
variable {related : α → β → Prop} {result : Except (Failure ε) α} {result' : Except (Failure ε) β}
variable {entry : Domain}

/-! ## Computations that change nothing, side by side -/

/-- The second result is like the first: both are answers, which are related, both are errors, or
both are halts.  The second may also be that a number left the range of words. -/
inductive EndsLike {ε α β : Type} (related : α → β → Prop) :
    Except (Failure ε) α → Except (Failure ε) β → Prop where
  | answers {value : α} {value' : β} :
      related value value' → EndsLike related (.ok value) (.ok value')
  | fails (error error' : ε) : EndsLike related (.error (.error error)) (.error (.error error'))
  | halts (reason reason' : Halt) : EndsLike related (.error (.halt reason))
      (.error (.halt reason'))
  /-- A number leaves the range of words in the second. -/
  | overflows (first : Except (Failure ε) α) : EndsLike related first (.error (.halt .overflow))

theorem EndsLike.mono {stronger : α → β → Prop} (ends : EndsLike stronger result result')
    (weaker : ∀ {value value'}, stronger value value' → related value value') :
    EndsLike related result result' := by
  cases ends with
  | answers holds => exact .answers (weaker holds)
  | fails error error' => exact .fails error error'
  | halts reason reason' => exact .halts reason reason'
  | overflows => exact .overflows _

/-- If the second computation answers, its answer is related to that of the first. -/
theorem EndsLike.exists_of_isOk {value : α} (ends : EndsLike related (.ok value) result')
    (isOk : result'.isOk) : ∃ value', result' = .ok value' ∧ related value value' := by
  cases ends with
  | answers holds => exact ⟨_, rfl, holds⟩
  | overflows => cases isOk

/-- The second computation ends like the first, and when both answer they have changed nothing. -/
structure Echoes {ε σ α β : Type} (related : α → β → Prop)
    (first : Attempt ε σ α) (start : σ) (second : Attempt ε σ β) (start' : σ) : Prop where
  ends : EndsLike related (first.run start).result (second.run start').result
  /-- When both answer, they leave the states that they started from. -/
  still : ∀ {value value'}, (first.run start).result = .ok value →
    (second.run start').result = .ok value' →
    (first.run start).state = start ∧ (second.run start').state = start'

namespace Echoes

variable {ε σ α β α' β' : Type} {related : α → β → Prop} {related' : α' → β' → Prop}
variable {start start' : σ}

/-- Where the second computation does not answer, it only has to end like the first. -/
theorem of_error {first : Attempt ε σ α} {second : Attempt ε σ β} {result : Except (Failure ε) α}
    {failure : Failure ε} (isFirst : (first.run start).result = result)
    (isSecond : (second.run start').result = .error failure)
    (ends : EndsLike related result (.error failure)) :
    Echoes related first start second start' := by
  refine ⟨?_, fun _ answered => ?_⟩
  · rwa [isFirst, isSecond]
  · rw [isSecond] at answered
    cases answered

theorem pure {value : α} {value' : β} (holds : related value value') :
    Echoes related (Pure.pure value : Attempt ε σ α) start (Pure.pure value') start' :=
  ⟨.answers holds, fun _ _ => ⟨rfl, rfl⟩⟩

theorem fail (error error' : ε) :
    Echoes related (Attempt.fail error : Attempt ε σ α) start
      (Attempt.fail error' : Attempt ε σ β) start' :=
  ⟨.fails error error', fun _ _ => ⟨rfl, rfl⟩⟩

theorem halt (reason reason' : Halt) :
    Echoes related (Attempt.halt reason : Attempt ε σ α) start
      (Attempt.halt reason' : Attempt ε σ β) start' :=
  ⟨.halts reason reason', fun _ _ => ⟨rfl, rfl⟩⟩

theorem lift {halting : Except Halt α} {halting' : Except Halt β}
    (tracks : Tracks related halting halting') :
    Echoes related (monadLift halting : Attempt ε σ α) start
      (monadLift halting' : Attempt ε σ β) start' := by
  cases tracks with
  | answers holds => exact pure holds
  | halts reason => exact halt reason reason
  | overflows => exact of_error rfl rfl (.overflows _)

theorem bind {first : Attempt ε σ α} {second : Attempt ε σ β} {next : α → Attempt ε σ α'}
    {next' : β → Attempt ε σ β'} (echoes : Echoes related first start second start')
    (continues : ∀ {value value'}, (first.run start).result = .ok value → related value value' →
      Echoes related' (next value) start (next' value') start') :
    Echoes related' (first >>= next) start (second >>= next') start' := by
  obtain ⟨ends, still⟩ := echoes
  generalize isFirst : (first.run start).result = result at ends
  generalize isSecond : (second.run start').result = result' at ends
  cases ends with
  | answers holds =>
    obtain ⟨firstStill, secondStill⟩ := still isFirst isSecond
    obtain ⟨restEnds, restStill⟩ := continues isFirst holds
    constructor
    · rwa [Attempt.run_bind_of_ok isFirst, Attempt.run_bind_of_ok isSecond, firstStill, secondStill]
    · rwa [Attempt.run_bind_of_ok isFirst, Attempt.run_bind_of_ok isSecond, firstStill, secondStill]
  | fails error error' =>
    exact of_error (congrArg Outcome.result (Attempt.run_bind_of_error isFirst))
      (congrArg Outcome.result (Attempt.run_bind_of_error isSecond)) (.fails error error')
  | halts reason reason' =>
    exact of_error (congrArg Outcome.result (Attempt.run_bind_of_error isFirst))
      (congrArg Outcome.result (Attempt.run_bind_of_error isSecond)) (.halts reason reason')
  | overflows =>
    exact of_error rfl (congrArg Outcome.result (Attempt.run_bind_of_error isSecond))
      (.overflows _)

theorem get_bind {next : σ → Attempt ε σ α} {next' : σ → Attempt ε σ β}
    (continues : Echoes related (next start) start (next' start') start') :
    Echoes related (get >>= next) start (get >>= next') start' :=
  ⟨continues.ends, continues.still⟩

theorem lift_bind {halting : Except Halt α} {halting' : Except Halt β} {next : α → Attempt ε σ α'}
    {next' : β → Attempt ε σ β'} (tracks : Tracks related halting halting')
    (continues : ∀ {value value'}, halting = .ok value → related value value' →
      Echoes related' (next value) start (next' value') start') :
    Echoes related' (monadLift halting >>= next) start (monadLift halting' >>= next') start' := by
  refine (lift tracks).bind fun answered => continues ?_
  cases halting with
  | ok value => exact congrArg Except.ok (Except.ok.inj answered)
  | error reason => cases answered

end Echoes

/-! ## Comparisons of renamed phrases -/

namespace Phrase

variable {category : Category}

theorem rename_injective (increasing : StrictMono targets) :
    Function.Injective (rename targets : Phrase category → Phrase category) := by
  intro left right same
  have order := compare_rename increasing left right
  rw [same] at order
  exact Std.LawfulEqOrd.eq_of_compare (order.symm.trans Std.ReflCmp.compare_self)

/-- A phrase without placeholders is in scope in every state. -/
theorem Ground.scoped (ground : phrase.Ground) (fits : Category → Nat → Nat → Prop) :
    ∃ depth, phrase.Scoped fits depth := by
  obtain ⟨depth, inScope⟩ := ground
  exact ⟨depth, inScope.mono False.elim le_rfl⟩

theorem Ground.head {term : Term} (ground : term.Ground) : term.head.Ground := by
  obtain ⟨depth, inScope⟩ := ground
  exact ⟨depth, ((scoped_iff_arguments term).1 inScope).1⟩

theorem sort_rename (targets : Nat → Nat) :
    ∀ ty : Ty, (ty.rename targets).sort = ty.sort.rename targets
  | classified _ _ => rfl

theorem Ground.rename (ground : phrase.Ground) (targets : Nat → Nat) :
    (phrase.rename targets).Ground := by
  obtain ⟨depth, inScope⟩ := ground
  obtain ⟨bound, above⟩ : ∃ bound, ∀ index < depth, targets index < bound :=
    ⟨(Finset.range depth).sup targets + 1, fun index present =>
      Nat.lt_succ_of_le (Finset.le_sup (Finset.mem_range.2 present))⟩
  exact ⟨bound, inScope.rename above⟩

end Phrase

namespace ConvM

variable {state : State} {fuel depth depth' : Nat}

theorem echoes_equalLevel {left right : Level} (increasing : StrictMono targets)
    (wellScoped : state.WellScoped) (ground : state.Ground) (leftGround : left.Ground)
    (rightGround : right.Ground) :
    Echoes (fun _ _ => True) (equalLevel fuel depth left right) state
      (equalLevel fuel depth' (left.rename targets) (right.rename targets)) state := by
  obtain ⟨_, leftInScope⟩ := leftGround.scoped state.Fits
  obtain ⟨_, rightInScope⟩ := rightGround.scoped state.Fits
  refine .get_bind (.lift_bind (tracks_normalise increasing wellScoped leftInScope) ?_)
  rintro left' _ leftReached rfl
  refine .lift_bind (tracks_normalise increasing wellScoped rightInScope) ?_
  rintro right' _ rightReached rfl
  have left'Ground : left'.Ground :=
    ground.normalise leftReached leftGround
  have right'Ground : right'.Ground :=
    ground.normalise rightReached rightGround
  rw [left'Ground.asPlaceholder?, right'Ground.asPlaceholder?,
    (left'Ground.rename targets).asPlaceholder?, (right'Ground.rename targets).asPlaceholder?,
    Phrase.ground_iff.1 left'Ground, Phrase.ground_iff.1 right'Ground,
    Phrase.ground_iff.1 (left'Ground.rename targets),
    Phrase.ground_iff.1 (right'Ground.rename targets)]
  by_cases same : left' = right'
  · rw [if_pos same, if_pos (congrArg _ same)]
    exact .pure trivial
  · rw [if_neg same, if_neg fun renamed => same (Phrase.rename_injective increasing renamed)]
    exact .fail _ _

theorem echoes_equalSort {left right : Universe} (increasing : StrictMono targets)
    (wellScoped : state.WellScoped) (ground : state.Ground) (leftGround : left.Ground)
    (rightGround : right.Ground) :
    Echoes (fun _ _ => True) (equalSort fuel depth left right) state
      (equalSort fuel depth' (left.rename targets) (right.rename targets)) state := by
  obtain ⟨_, leftInScope⟩ := leftGround.scoped state.Fits
  obtain ⟨_, rightInScope⟩ := rightGround.scoped state.Fits
  refine .get_bind (.lift_bind (tracks_reduce increasing wellScoped leftInScope) ?_)
  rintro left' _ leftReached rfl
  refine .lift_bind (tracks_reduce increasing wellScoped rightInScope) ?_
  rintro right' _ rightReached rfl
  have left'Ground := ground.supplies.reduce leftReached leftGround
  have right'Ground := ground.supplies.reduce rightReached rightGround
  by_cases same : left' = right'
  · rw [if_pos same, if_pos (congrArg _ same)]
    exact .pure trivial
  rw [if_neg same, if_neg fun renamed => same (Phrase.rename_injective increasing renamed)]
  cases left' with
  | sortPlaceholder => exact absurd left'Ground Phrase.not_ground_sortPlaceholder
  | set leftBound =>
    cases right' with
    | sortPlaceholder => exact absurd right'Ground Phrase.not_ground_sortPlaceholder
    | set rightBound =>
      exact echoes_equalLevel increasing wellScoped ground left'Ground right'Ground
    | _ => exact .fail _ _
  | _ =>
    cases right' with
    | sortPlaceholder => exact absurd right'Ground Phrase.not_ground_sortPlaceholder
    | _ => exact .fail _ _

theorem echoes_equalArguments {equal equal' : Term → Term → ConvM Unit}
    (echoes : ∀ {left right : Term}, left.Ground → right.Ground →
      Echoes (fun _ _ => True) (equal left right) state
        (equal' (left.rename targets) (right.rename targets)) state) :
    ∀ {left right : List (ArgInfo × Term)},
      (∀ argument ∈ left, argument.2.Ground) →
      (∀ argument ∈ right, argument.2.Ground) →
      Echoes (fun _ _ => True) (equalArguments equal left right) state
        (equalArguments equal' (left.map fun argument => (argument.1, argument.2.rename targets))
          (right.map fun argument => (argument.1, argument.2.rename targets))) state
  | (info, left) :: lefts, (_, right) :: rights, leftGround, rightGround => by
    rw [List.forall_mem_cons] at leftGround rightGround
    have rest := echoes_equalArguments echoes leftGround.2 rightGround.2
    simp only [List.map_cons, equalArguments]
    split
    · exact rest
    · exact (echoes leftGround.1 rightGround.1).bind fun _ _ => rest
  | [], _, _, _ | _ :: _, [], _, _ => .pure trivial

/-- Applications are compared head by head and argument by argument. -/
theorem echoes_applications {left right : Term}
    (equals : ∀ {left right : Term}, left.Ground → right.Ground →
      Echoes (fun _ _ => True) (equalTerm fuel depth left right) state
        (equalTerm fuel depth' (left.rename targets) (right.rename targets)) state)
    (leftGround : left.Ground) (rightGround : right.Ground) :
    Echoes (fun _ _ => True)
      (if isPlaceholder left.head || isPlaceholder right.head then
        postpone depth (.equalTerms left right)
      else if left.arguments.length = right.arguments.length then do
        equalTerm fuel depth left.head right.head
        equalArguments (equalTerm fuel depth) left.arguments right.arguments
      else
        Attempt.fail (.unequalTerms left right)) state
      (if isPlaceholder (left.rename targets).head || isPlaceholder (right.rename targets).head then
        postpone depth' (.equalTerms (left.rename targets) (right.rename targets))
      else if (left.rename targets).arguments.length =
        (right.rename targets).arguments.length then do
        equalTerm fuel depth' (left.rename targets).head (right.rename targets).head
        equalArguments (equalTerm fuel depth') (left.rename targets).arguments
          (right.rename targets).arguments
      else
        Attempt.fail (.unequalTerms (left.rename targets) (right.rename targets))) state := by
  have leftHead := leftGround.head
  have rightHead := rightGround.head
  rw [Phrase.head_rename, Phrase.head_rename, Phrase.arguments_rename, Phrase.arguments_rename,
    List.length_map, List.length_map, leftHead.isPlaceholder, rightHead.isPlaceholder,
    (leftHead.rename targets).isPlaceholder, (rightHead.rename targets).isPlaceholder]
  simp only [Bool.or_self, Bool.false_eq_true, if_false]
  split
  · refine (equals leftHead rightHead).bind fun _ _ => ?_
    exact echoes_equalArguments equals (fun _ present => leftGround.argument present)
      (fun _ present => rightGround.argument present)
  · exact .fail _ _

/-- A comparison of terms without placeholders ends like that of the terms renamed. -/
theorem echoes_equalTerm {left right : Term} (increasing : StrictMono targets)
    (wellScoped : state.WellScoped) (ground : state.Ground) (leftGround : left.Ground)
    (rightGround : right.Ground) :
    Echoes (fun _ _ => True) (equalTerm fuel depth left right) state
      (equalTerm fuel depth' (left.rename targets) (right.rename targets)) state := by
  induction fuel generalizing depth depth' left right targets with
  | zero => exact .halt _ _
  | succ fuel ih =>
    obtain ⟨_, leftInScope⟩ := leftGround.scoped state.Fits
    obtain ⟨_, rightInScope⟩ := rightGround.scoped state.Fits
    refine .get_bind (.lift_bind (tracks_reduce increasing wellScoped leftInScope) ?_)
    rintro left' _ leftReached rfl
    refine .lift_bind (tracks_reduce increasing wellScoped rightInScope) ?_
    rintro right' _ rightReached rfl
    have left'Ground : left'.Ground := ground.supplies.reduce leftReached leftGround
    have right'Ground : right'.Ground := ground.supplies.reduce rightReached rightGround
    have levels : Echoes (fun _ _ => True)
        (equalLevel fuel depth (Level.ofTerm left') (Level.ofTerm right')) state
        (equalLevel fuel depth' ((Level.ofTerm left').rename targets)
          ((Level.ofTerm right').rename targets)) state :=
      echoes_equalLevel increasing wellScoped ground left'Ground.ofTerm right'Ground.ofTerm
    by_cases same : left' = right'
    · rw [if_pos same, if_pos (congrArg _ same)]
      exact .pure trivial
    rw [if_neg same, if_neg fun renamed => same (Phrase.rename_injective increasing renamed)]
    cases left' with
    | placeholder => exact absurd left'Ground Phrase.not_ground_placeholder
    | level =>
      cases right' with
      | placeholder => exact absurd right'Ground Phrase.not_ground_placeholder
      | _ => exact levels
    | univ =>
      cases right' with
      | placeholder => exact absurd right'Ground Phrase.not_ground_placeholder
      | level => exact levels
      | univ => exact echoes_equalSort increasing wellScoped ground left'Ground right'Ground
      | _ => exact .fail _ _
    | pi _ leftInfo leftDomain leftCodomain =>
      cases right' with
      | placeholder => exact absurd right'Ground Phrase.not_ground_placeholder
      | level => exact levels
      | pi _ rightInfo rightDomain rightCodomain =>
        obtain ⟨leftDomainGround, leftCodomainGround⟩ := Phrase.ground_pi_iff.1 left'Ground
        obtain ⟨rightDomainGround, rightCodomainGround⟩ := Phrase.ground_pi_iff.1 right'Ground
        change Echoes _ (if leftInfo.plicity = rightInfo.plicity then _ else _) state
          (if leftInfo.plicity = rightInfo.plicity then _ else _) state
        by_cases plicities : leftInfo.plicity = rightInfo.plicity
        · rw [if_pos plicities, if_pos plicities]
          have domains := @ih _ depth depth' _ _ increasing
            leftDomainGround.term rightDomainGround.term
          have codomains := @ih _ (depth + 1) (depth' + 1) _ _
            (Phrase.strictMono_underBinder increasing) leftCodomainGround.term
            rightCodomainGround.term
          rw [← Phrase.term_rename, ← Phrase.term_rename] at domains codomains
          exact domains.bind fun _ _ => codomains
        · rw [if_neg plicities, if_neg plicities]
          exact .fail _ _
      | _ => exact .fail _ _
    | app leftFunction leftArgument leftInfo =>
      cases right' with
      | placeholder => exact absurd right'Ground Phrase.not_ground_placeholder
      | level => exact levels
      | app rightFunction rightArgument rightInfo =>
        exact echoes_applications (ih increasing) left'Ground right'Ground
      | _ => exact .fail _ _
    | _ =>
      cases right' with
      | placeholder => exact absurd right'Ground Phrase.not_ground_placeholder
      | level => exact levels
      | _ => exact .fail _ _

end ConvM

/-! ## Sorts of renamed phrases -/

namespace Universe

theorem succ?_rename (increasing : StrictMono targets) (sort : Universe) :
    succ? (sort.rename targets) = (succ? sort).map (·.rename targets) := by
  cases sort with
  | set bound =>
    change (Level.succ? (bound.rename targets)).bind _ = _
    rw [Level.succ?, Level.raise?_rename increasing]
    cases isRaised : Level.raise? bound 1 <;> simp [succ?, Level.succ?, isRaised]
    rfl
  | _ => rfl

theorem pi?_rename (increasing : StrictMono targets) (domain : Universe)
    (codomain : Option Universe) :
    pi? (domain.rename targets) (codomain.map (·.rename targets)) =
      (pi? domain codomain).map (·.rename targets) := by
  cases codomain with
  | none => rfl
  | some codomain =>
    cases domain with
    | set left =>
      cases codomain with
      | set right => exact congrArg (some ∘ Phrase.set) (Level.join_rename increasing left right)
      | _ => rfl
    | _ => cases codomain <;> rfl

end Universe

/-! ## One more variable -/

namespace Context

/-- The second context has one more variable, at a position counted outward from the innermost
variable.  The types of the variables inside of it are lifted over it. -/
inductive Inserts (added : Domain) : (position : Nat) → Context → Context → Prop where
  | here {outer : Context} : Inserts added 0 outer (added :: outer)
  | under {position : Nat} {narrow wide : Context} {name : Name} {info : ArgInfo} {ty ty' : Ty} :
      Inserts added position narrow wide → ty' = ty.rename (Phrase.raised 1 position) →
      Inserts added (position + 1) (⟨name, info, ty⟩ :: narrow) (⟨name, info, ty'⟩ :: wide)

variable {added : Domain} {position : Nat} {narrow wide : Context}

section

variable (inserts : Inserts added position narrow wide)

include inserts

theorem Inserts.position_le : position ≤ narrow.length := by
  induction inserts with
  | here => exact Nat.zero_le _
  | under _ _ ih => exact Nat.succ_le_succ ih

/-- A variable inside of the new one keeps its index, and its type is lifted. -/
theorem Inserts.getElem?_of_lt (inside : index < position) (found : narrow[index]? = some entry) :
    ∃ entry', wide[index]? = some entry' ∧
      entry'.ty = entry.ty.rename (Phrase.raised 1 (position - (index + 1))) := by
  induction inserts generalizing index with
  | here => exact absurd inside (Nat.not_lt_zero index)
  | @under position narrow wide name info ty ty' _ isLifted ih =>
    cases index with
    | zero =>
      obtain rfl := Option.some.inj found
      exact ⟨_, rfl, isLifted⟩
    | succ index =>
      obtain ⟨entry', found', isLifted⟩ :=
        ih (Nat.lt_of_succ_lt_succ inside) found
      exact ⟨entry', found', by rw [isLifted, Nat.add_sub_add_right]⟩

/-- A variable outside of the new one has the next index. -/
theorem Inserts.getElem?_of_le
    (outside : position ≤ index) : wide[index + 1]? = narrow[index]? := by
  induction inserts generalizing index with
  | here => rfl
  | under _ _ ih =>
    cases index with
    | zero => exact absurd outside (Nat.not_succ_le_zero _)
    | succ index => exact ih (Nat.le_of_succ_le_succ outside)

/-- Every variable is found in the larger context, where its type is renamed so that it stands for
the same in the whole scope. -/
theorem Inserts.exists_getElem? (found : narrow[index]? = some entry) :
    ∃ entry' inner, wide[Phrase.raised 1 position index]? = some entry' ∧
      entry'.ty = entry.ty.rename inner ∧ (∀ free, free ≤ inner free) ∧
      ∀ free, inner free + (Phrase.raised 1 position index + 1) =
        Phrase.raised 1 position (free + (index + 1)) := by
  by_cases inside : index < position
  · obtain ⟨entry', found', isLifted⟩ := inserts.getElem?_of_lt inside found
    refine ⟨entry', _, ?_, isLifted, fun _ => (Phrase.strictMono_raised _ _).le_apply, ?_⟩
    · rwa [Phrase.raised, if_neg (Nat.not_le_of_lt inside)]
    · intro free
      grind [Phrase.raised]
  · have outside := Nat.le_of_not_lt inside
    refine ⟨entry, id, ?_, (Phrase.rename_eq_self entry.ty fun _ => rfl).symm, fun _ => le_rfl, ?_⟩
    · rw [Phrase.raised, if_pos outside, inserts.getElem?_of_le outside, found]
    · intro free
      grind [Phrase.raised]

/-- The types of variables are found alike in both contexts. -/
theorem Inserts.tracks_typeOf? (index : Nat) :
    Tracks (fun ty? ty'? => ty'? = ty?.map (·.rename (Phrase.raised 1 position)))
      (checked (narrow.typeOf? index))
      (checked (wide.typeOf? (Phrase.raised 1 position index))) := by
  unfold typeOf?
  cases found : narrow[index]? with
  | none =>
    have outside : position ≤ index :=
      inserts.position_le.trans (List.getElem?_eq_none_iff.1 found)
    rw [Phrase.raised, if_pos outside, inserts.getElem?_of_le outside, found]
    exact .answers rfl
  | some entry =>
    obtain ⟨entry', inner, found', isRenamed, upwards, commutes⟩ := inserts.exists_getElem? found
    rw [found']
    refine .checked fun {ty'?} isLifted => ?_
    obtain ⟨ty', lifted', same⟩ := Option.bind_eq_some_iff.1 isLifted
    obtain rfl := Option.some.inj same
    have less : index + 1 ≤ Phrase.raised 1 position index + 1 :=
      Nat.succ_le_succ (Phrase.strictMono_raised 1 position).le_apply
    rw [isRenamed] at lifted'
    obtain ⟨ty, lifted⟩ := Phrase.exists_lift?_of_rename upwards less lifted'
    have renamed : ty' = ty.rename (Phrase.raised 1 position) := by
      rw [Phrase.eq_rename_of_lift?_zero lifted', Phrase.eq_rename_of_lift?_zero lifted,
        Phrase.rename_rename, Phrase.rename_rename]
      exact congrArg (entry.ty.rename ·) (funext commutes)
    exact ⟨some ty, Option.bind_eq_some_iff.2 ⟨ty, lifted, rfl⟩, congrArg some renamed⟩

end

end Context

/-! ## Inference -/

namespace Phrase

variable {category : Category}

/-- A closed phrase has no variables to rename. -/
theorem Below.rename_of_closed (closed : phrase.Below 0) (targets : Nat → Nat) :
    phrase.rename targets = phrase := by
  rw [rename_eq_replace, closed.replace_congr fun index inside =>
    absurd inside (Nat.not_lt_zero index)]
  exact replace_eq_self phrase fun _ => rfl

/-- Instantiating commutes with renaming. -/
theorem tracks_instantiate? {argument : Term} (increasing : StrictMono targets) :
    Tracks (fun value value' => value' = value.rename targets)
      (checked (phrase.instantiate? argument))
      (checked ((phrase.rename (underBinder targets)).instantiate? (argument.rename targets))) := by
  refine .checked fun {result'} instantiated => ?_
  obtain ⟨result, isResult⟩ :=
    exists_instantiate?_of_rename (fun _ => increasing.le_apply) instantiated
  refine ⟨result, isResult, ?_⟩
  rw [eq_replace_of_instantiate? instantiated, eq_replace_of_instantiate? isResult, replace_rename,
    rename_replace]
  refine congrArg (phrase.replace ·) (funext fun index => ?_)
  cases index with
  | zero => rfl
  | succ index => rfl

end Phrase

/-- Where there are no placeholders, whatever is in scope has none. -/
theorem Phrase.Scoped.ground_of_empty {state : State} {depth : Nat}
    (inScope : phrase.Scoped state.Fits depth) (empty : state.placeholders = []) :
    phrase.Ground := by
  refine ⟨depth, inScope.mono ?_ le_rfl⟩
  intro kind id count fits
  cases fits with
  | term found => simp [empty] at found
  | sort found => simp [empty] at found

/-- Where there are no placeholders, none occur in the bodies of functions. -/
theorem State.WellScoped.ground_of_empty {state : State} (wellScoped : state.WellScoped)
    (empty : state.placeholders = []) : state.Ground := by
  intro entry present
  have inScope := (wellScoped.signature entry present).2
  unfold Kind.isGround
  split
  · rename_i arity body isFunction
    rw [isFunction] at inScope
    have bodyGround := Phrase.Scoped.ground_of_empty inScope empty
    rw [Phrase.ground_iff.1 bodyGround]
    rfl
  · rfl

namespace CheckM

/-- A comparison by the checker is one in its state. -/
theorem echoes_convert {checker : Checker} {comparison comparison' : ConvM Unit}
    (narrow wide : Context)
    (echoes : Echoes (fun _ _ => True) comparison checker.state comparison' checker.state) :
    Echoes (fun _ _ => True) (convert comparison) { checker with context := narrow }
      (convert comparison') { checker with context := wide } := by
  obtain ⟨ends, still⟩ := echoes
  generalize isFirst : comparison.run checker.state = first at ends still
  generalize isSecond : comparison'.run checker.state = second at ends still
  obtain ⟨result, after, passed⟩ := first
  obtain ⟨result', after', passed'⟩ := second
  cases ends with
  | answers holds =>
    obtain ⟨rfl, rfl⟩ := still rfl rfl
    constructor
    · simp only [convert, attempt, Attempt.run_bind, isFirst, isSecond]
      exact .answers trivial
    · simp only [convert, attempt, Attempt.run_bind, isFirst, isSecond]
      exact fun _ _ => ⟨rfl, rfl⟩
  | fails error error' =>
    refine .of_error ?_ ?_ (.fails (.conversion error) (.conversion error')) <;>
      simp only [convert, attempt, Attempt.run_bind, isFirst, isSecond] <;> rfl
  | halts reason reason' =>
    refine .of_error ?_ ?_ (.halts reason reason') <;>
      simp only [convert, attempt, Attempt.run_bind, isFirst, isSecond]
  | overflows =>
    refine .of_error rfl ?_ (.overflows _)
    simp only [convert, attempt, Attempt.run_bind, isSecond]

/-- No placeholder occurs in what is declared, and the second context has one more variable than the
first, in whose types no placeholder occurs. -/
structure Enlarges (checker : Checker) (added : Domain) (position : Nat) (narrow wide : Context) :
    Prop where
  wellScoped : checker.state.WellScoped
  bodies : checker.state.Ground
  types : ∀ entry ∈ checker.state.signature.values, entry.definition.ty.Ground
  inserts : Context.Inserts added position narrow wide
  ground : Telescope.Ground narrow

variable {checker : Checker} {added : Domain} {position : Nat} {narrow wide : Context}

/-- In the larger context the computation answers with the lifted phrase, and no placeholder occurs
in it. -/
abbrev Weakens {category : Category} (checker : Checker) (position : Nat) (narrow wide : Context)
    (first second : CheckM (Phrase category)) : Prop :=
  Echoes (fun value value' => value.Ground ∧ value' = value.rename (Phrase.raised 1 position))
    first { checker with context := narrow } second { checker with context := wide }

section

variable (enlarges : Enlarges checker added position narrow wide)

include enlarges

theorem echoes_reduce (increasing : StrictMono targets) (ground : phrase.Ground) :
    Echoes (fun result result' => result.Ground ∧ result' = result.rename targets)
      (reduce phrase) { checker with context := narrow }
      (reduce (phrase.rename targets)) { checker with context := wide } := by
  obtain ⟨_, inScope⟩ := ground.scoped checker.state.Fits
  have tracks := @tracks_reduce _ checker.state _ _ checker.fuel phrase increasing
    enlarges.wellScoped inScope
  refine .get_bind (.lift (tracks.mono fun reached same => ⟨?_, same⟩))
  exact enlarges.bodies.supplies.reduce reached ground

theorem echoes_equalTerm {left right : Term} (leftGround : left.Ground)
    (rightGround : right.Ground) :
    Echoes (fun _ _ => True) (equalTerm left right) { checker with context := narrow }
      (equalTerm (left.rename (Phrase.raised 1 position)) (right.rename (Phrase.raised 1 position)))
      { checker with context := wide } :=
  .get_bind (echoes_convert narrow wide
    (ConvM.echoes_equalTerm (Phrase.strictMono_raised 1 position)
    enlarges.wellScoped enlarges.bodies leftGround rightGround))

theorem weakens_inferVariable (index : Nat) :
    Weakens checker position narrow wide (inferVariable index)
      (inferVariable (Phrase.raised 1 position index)) := by
  refine .get_bind (.lift_bind (enlarges.inserts.tracks_typeOf? index) ?_)
  rintro (_ | ty) _ found rfl
  · exact .halt _ _
  · have ground := Context.ground_typeOf? enlarges.ground (checked_eq_ok_iff.1 found)
    exact .pure ⟨ground.term, Phrase.term_rename _ ty⟩

theorem weakens_inferConstant (path : Path) :
    Weakens checker position narrow wide (inferConstant path) (inferConstant path) := by
  refine .get_bind ?_
  simp only
  split
  · rename_i definition found
    have closed := (enlarges.wellScoped.definition found).1
    obtain ⟨entry, declared, rfl⟩ := Option.map_eq_some_iff.1 found
    refine .pure ⟨(enlarges.types entry (PathMap.mem_values_of_get? declared)).term, ?_⟩
    rw [closed.term.below.rename_of_closed]
  · exact .fail _ _

theorem weakens_piSort {domain codomain : Universe} (domainGround : domain.Ground)
    (codomainGround : codomain.Ground) :
    Weakens checker position narrow wide (piSort domain codomain)
      (piSort (domain.rename (Phrase.raised 1 position))
        (codomain.rename (Phrase.underBinder (Phrase.raised 1 position)))) := by
  have increasing := Phrase.strictMono_raised 1 position
  refine (echoes_reduce enlarges increasing domainGround).bind ?_
  rintro domain _ _ ⟨domainGround, rfl⟩
  refine (echoes_reduce enlarges (Phrase.strictMono_underBinder increasing) codomainGround).bind ?_
  rintro codomain _ _ ⟨codomainGround, rfl⟩
  have outsideGround : ∀ outside, codomain.strengthen? 1 = some outside → outside.Ground :=
    fun _ strengthened => codomainGround.strengthen? strengthened
  obtain ⟨sort, isSort, sortGround⟩ := Universe.exists_pi? domainGround outsideGround
  have isSort' := Universe.pi?_rename increasing domain (codomain.strengthen? 1)
  rw [isSort, ← Phrase.strengthen?_rename] at isSort'
  simp only [isSort, isSort', Option.map_some]
  exact .pure ⟨sortGround, rfl⟩

/-- The type of a phrase that is a term, in a scope with one more variable. -/
theorem weakens_inferPhrase (isTerm : category = .term) (ground : phrase.Ground) :
    Weakens checker position narrow wide (inferPhrase phrase isTerm)
      (inferPhrase (phrase.rename (Phrase.raised 1 position)) isTerm) := by
  have increasing := Phrase.strictMono_raised 1 position
  induction phrase with
  | var index => exact weakens_inferVariable enlarges index
  | const path => exact weakens_inferConstant enlarges path
  | app function argument info ihFunction ihArgument =>
    obtain ⟨functionGround, argumentGround⟩ := Phrase.ground_app_iff.1 ground
    refine (ihFunction rfl functionGround).bind ?_
    rintro functionType _ _ ⟨typeGround, rfl⟩
    refine (echoes_reduce enlarges increasing typeGround).bind ?_
    rintro reduced _ _ ⟨reducedGround, rfl⟩
    cases reduced with
    | pi name domainInfo domain codomain =>
      obtain ⟨domainGround, codomainGround⟩ := Phrase.ground_pi_iff.1 reducedGround
      change Echoes _ (if domainInfo.plicity = info.plicity then _ else _) _
        (if domainInfo.plicity = info.plicity then _ else _) _
      by_cases plicities : domainInfo.plicity = info.plicity
      · rw [if_pos plicities, if_pos plicities]
        refine (ihArgument rfl argumentGround).bind ?_
        rintro argumentType _ _ ⟨argumentTypeGround, rfl⟩
        have compared := echoes_equalTerm enlarges argumentTypeGround domainGround.term
        have instantiated := @Phrase.tracks_instantiate? _ _ codomain.term argument increasing
        rw [← Phrase.term_rename] at compared instantiated
        refine compared.bind fun _ _ => .lift (instantiated.mono fun isInstance same => ⟨?_, same⟩)
        exact codomainGround.term.instantiate? argumentGround (checked_eq_ok_iff.1 isInstance)
      · rw [if_neg plicities, if_neg plicities]
        exact .fail _ _
    | _ => exact .fail _ _
  | pi name info domain codomain =>
    obtain ⟨domainGround, codomainGround⟩ := Phrase.ground_pi_iff.1 ground
    have sorts := weakens_piSort enlarges domainGround.sort codomainGround.sort
    rw [← Phrase.sort_rename, ← Phrase.sort_rename] at sorts
    refine sorts.bind ?_
    rintro sort _ _ ⟨sortGround, rfl⟩
    exact .pure ⟨Phrase.ground_univ_iff.2 sortGround, rfl⟩
  | univ sort =>
    have sortGround := Phrase.ground_univ_iff.1 ground
    have tracks := Tracks.checked_map (Universe.succ? sort) (·.rename (Phrase.raised 1 position))
    rw [← Universe.succ?_rename increasing] at tracks
    refine .lift_bind tracks ?_
    rintro above _ succeeded rfl
    have aboveGround := Universe.ground_succ? sortGround (checked_eq_ok_iff.1 succeeded)
    exact .pure ⟨Phrase.ground_univ_iff.2 aboveGround, rfl⟩
  | level bound => exact .pure ⟨Phrase.ground_const _, rfl⟩
  | placeholder => exact absurd ground Phrase.not_ground_placeholder
  | _ => cases isTerm

theorem weakens_inferSort {term : Term} (ground : term.Ground) :
    Weakens checker position narrow wide (inferSort term)
      (inferSort (term.rename (Phrase.raised 1 position))) := by
  refine (weakens_inferPhrase enlarges rfl ground).bind ?_
  rintro ty _ _ ⟨tyGround, rfl⟩
  refine (echoes_reduce enlarges (Phrase.strictMono_raised 1 position) tyGround).bind ?_
  rintro reduced _ _ ⟨reducedGround, rfl⟩
  cases reduced with
  | univ sort => exact .pure ⟨Phrase.ground_univ_iff.1 reducedGround, rfl⟩
  | placeholder => exact absurd reducedGround Phrase.not_ground_placeholder
  | _ => exact .fail _ _

end

theorem Weakens.ends {first second : CheckM (Phrase category)}
    (weakens : Weakens checker position narrow wide first second) :
    EndsLike (fun value value' => value' = value.rename (Phrase.raised 1 position))
      (first.run { checker with context := narrow }).result
      (second.run { checker with context := wide }).result :=
  (Echoes.ends weakens).mono And.right

/-- Without placeholders, the type and the sort of a term do not depend on a variable that is put
into the scope, at any position: inference for the lifted term ends like that for the term, and an
answer is lifted.  It answers only where the other does, and it fails to answer where the other does
only if an index leaves the range of words. -/
theorem infer_weakens
    {term lifted : Term}
    (wellScoped : checker.state.WellScoped)
    (empty : checker.state.placeholders = [])
    (inserts : Context.Inserts added position narrow wide)
    (contextFree : ∀ domain ∈ narrow, domain.ty.hasPlaceholder = false)
    (termFree : term.hasPlaceholder = false)
    (isLifted : term.lift? 1 position = some lifted) :
    EndsLike (fun ty ty' => ty' = ty.rename (Phrase.raised 1 position))
        ((infer term).run { checker with context := narrow }).result
        ((infer lifted).run { checker with context := wide }).result ∧
      EndsLike (fun sort sort' => sort' = sort.rename (Phrase.raised 1 position))
        ((inferSort term).run { checker with context := narrow }).result
        ((inferSort lifted).run { checker with context := wide }).result := by
  have ground : term.Ground := Phrase.ground_iff.2 termFree
  have enlarges : Enlarges checker added position narrow wide :=
    { wellScoped
      bodies := wellScoped.ground_of_empty empty
      types := fun entry present =>
        (wellScoped.signature entry present).1.ground_of_empty empty
      inserts
      ground := fun domain present => Phrase.ground_iff.2 (contextFree domain present) }
  rw [Phrase.eq_rename_of_lift? isLifted]
  exact ⟨(weakens_inferPhrase enlarges rfl ground).ends, (weakens_inferSort enlarges ground).ends⟩

/-- A family of sets of a variable level is applied, and a variable is put next to the level. -/
theorem infer_weakens_family :
    let height (index : Nat) : Universe := .set (.lub 0 (.atom (.var index) 0 .noAtoms))
    let bind (name : Nat) (term : Term) : Domain :=
      ⟨⟨name⟩, {}, .classified (Universe.ofNat 0) term⟩
    let family (index : Nat) : Term := .pi ⟨3⟩ {} (.classified (height (index + 1)) (.var 0))
      (.classified (Universe.ofNat 0) (.univ (height (index + 2))))
    let scope (index : Nat) (outer : Context) : Context :=
      bind 2 (.var 1) :: bind 1 (family index) :: bind 0 (.univ (height index)) :: outer
    let levels : Domain := bind 4 (.const Path.level)
    let points : Domain := bind 5 (.const ⟨2⟩)
    let set : Term := .app (.var 1) (.var 0) {}
    ((infer set).run { doubled with context := scope 0 [levels] }).result =
        .ok (.univ (height 3)) ∧
      ((infer set).run { doubled with context := scope 1 [points, levels] }).result =
        .ok (.univ (height 4)) ∧
      ((inferSort set).run { doubled with context := scope 1 [points, levels] }).result =
        .ok (height 4) := by
  intro height bind family scope levels points set
  have reachable : Reachable doubled := .ends (.initial {} .patterns 40) (.check doubling) rfl
  have inserts : Context.Inserts points 3 (scope 0 [levels]) (scope 1 [points, levels]) :=
    .under (.under (.under .here (by decide +kernel)) (by decide +kernel)) (by decide +kernel)
  have narrowType : ((infer set).run { doubled with context := scope 0 [levels] }).result =
      .ok (.univ (height 3)) := by decide +kernel
  have narrowSort : ((inferSort set).run { doubled with context := scope 0 [levels] }).result =
      .ok (height 3) := by decide +kernel
  obtain ⟨types, sorts⟩ := infer_weakens reachable.wellScoped.state (by decide +kernel) inserts
    (by decide +kernel) (by decide +kernel) (show set.lift? 1 3 = some set by decide +kernel)
  rw [narrowType] at types
  rw [narrowSort] at sorts
  obtain ⟨ty, wideType, rfl⟩ := types.exists_of_isOk (by decide +kernel)
  obtain ⟨sort, wideSort, rfl⟩ := sorts.exists_of_isOk (by decide +kernel)
  exact ⟨narrowType, wideType, wideSort⟩

end CheckM

end Families
