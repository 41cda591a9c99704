import Families.Proofs.Learning

/-!
# Reduction and its fuel

What a phrase reduces to depends on the declarations and the solutions alone: neither more fuel nor
postponed comparisons change it.  So two walks along a type meet the same binders.
-/

namespace Families

/-- Both states have the same declarations and solutions. -/
structure State.UnfoldsAs (left right : State) : Prop where
  signature : right.signature = left.signature
  placeholders : right.placeholders = left.placeholders

namespace State

variable {left right third : State}

theorem UnfoldsAs.refl (state : State) : state.UnfoldsAs state :=
  ⟨rfl, rfl⟩

theorem UnfoldsAs.trans (first : left.UnfoldsAs right) (second : right.UnfoldsAs third) :
    left.UnfoldsAs third :=
  ⟨second.signature.trans first.signature, second.placeholders.trans first.placeholders⟩

theorem Waits.unfoldsAs (waits : left.Waits right) : left.UnfoldsAs right := by
  obtain ⟨postponed, rfl⟩ := waits
  exact ⟨rfl, rfl⟩

theorem UnfoldsAs.solution? (alike : left.UnfoldsAs right) (id : Nat) :
    right.solution? id = left.solution? id := by
  rw [State.solution?, State.solution?, alike.placeholders]

theorem UnfoldsAs.unfoldHead? (alike : left.UnfoldsAs right) (term : Term) :
    unfoldHead? right term = unfoldHead? left term := by
  simp only [Families.unfoldHead?, alike.signature, alike.solution?]

end State

/-- A fold whose steps succeed alike has the same result. -/
theorem foldlM_eq_ok_of_steps {α β : Type} {step step' : β → α → Except Halt β} {list : List α}
    {start last : β}
    (steps : ∀ element ∈ list, ∀ {value next}, step value element = .ok next →
      step' value element = .ok next)
    (folded : list.foldlM step start = .ok last) : list.foldlM step' start = .ok last := by
  induction list generalizing start with
  | nil => exact folded
  | cons first rest ih =>
    rw [List.foldlM_cons, bind_eq_ok_iff] at folded ⊢
    obtain ⟨next, stepped, restFolded⟩ := folded
    rw [List.forall_mem_cons] at steps
    exact ⟨next, steps.1 stepped, ih steps.2 restFolded⟩

/-- Postponed comparisons and more fuel change no reduction that succeeds. -/
theorem reduce_of_le {left right : State} (alike : left.UnfoldsAs right) {fuel more : Nat}
    {category : Category} {phrase result : Phrase category}
    (reduced : reduce left fuel phrase = .ok result) (enough : fuel ≤ more) :
    reduce right more phrase = .ok result := by
  induction fuel generalizing more category phrase result with
  | zero => simp [reduce] at reduced
  | succ fuel ih =>
    obtain ⟨more, rfl⟩ : ∃ less, more = less + 1 := ⟨more - 1, by omega⟩
    have enough : fuel ≤ more := by omega
    cases phrase with
    | univ | level | set =>
      simp only [reduce, bind_eq_ok_iff] at reduced ⊢
      obtain ⟨part, partReduced, isResult⟩ := reduced
      exact ⟨part, ih partReduced enough, isResult⟩
    | const | app | placeholder =>
      simp only [reduce, bind_eq_ok_iff, alike.unfoldHead?] at reduced ⊢
      obtain ⟨next?, unfolded, continued⟩ := reduced
      refine ⟨next?, unfolded, ?_⟩
      cases next? with
      | none => exact continued
      | some next => exact ih continued enough
    | sortPlaceholder id arguments =>
      simp only [reduce, alike.solution?] at reduced ⊢
      split at reduced
      · rw [bind_eq_ok_iff] at reduced ⊢
        obtain ⟨sort, substituted, continued⟩ := reduced
        exact ⟨sort, substituted, ih continued enough⟩
      · exact reduced
    | lub constant atoms =>
      simp only [reduce] at reduced ⊢
      refine foldlM_eq_ok_of_steps ?_ reduced
      intro atom _ joined next stepped
      rw [bind_eq_ok_iff] at stepped ⊢
      obtain ⟨term, termReduced, joinedNext⟩ := stepped
      exact ⟨term, ih termReduced enough, joinedNext⟩
    | _ => exact reduced

/-- Reductions of a phrase that succeed agree. -/
theorem reduce_unique {left right : State} (alike : left.UnfoldsAs right) {fuel fuel' : Nat}
    {category : Category} {phrase result result' : Phrase category}
    (reduced : reduce left fuel phrase = .ok result)
    (reduced' : reduce right fuel' phrase = .ok result') : result' = result := by
  have first := reduce_of_le alike reduced (Nat.le_max_left fuel fuel')
  have second := reduce_of_le (.refl right) reduced' (Nat.le_max_right fuel fuel')
  exact Except.ok.inj (second.symm.trans first)

end Families
