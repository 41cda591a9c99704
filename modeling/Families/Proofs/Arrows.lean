import Families.Proofs.Applications
import Families.Proofs.Weakening

/-!
# Function types that are written with an arrow

An arrow binds a variable like every function type, under the name `_`.  Where no placeholder
occurs, an expression means the same, up to lifting, in a scope with one more variable, unless it
mentions the name of that variable.  So the codomain of an arrow does not depend on the argument
exactly if it does not mention `_`.
-/

namespace Families

variable {α β : Type}

/-! ## Names in expressions -/

namespace Expr

mutual

/-- A variable of the name is free in the expression.  An arrow binds a variable too, under the
name `_`. -/
def mentions (text : String) : Expr → Bool
  | .var name => name == text
  | .app function arguments => function.mentions text || mentionedIn text arguments
  | .pi name _ domain codomain =>
    domain.mentions text || (name != text && codomain.mentions text)
  | .arrow domain codomain => domain.mentions text || ("_" != text && codomain.mentions text)
  | .setAt level => level.mentions text
  | .levelSuc level => level.mentions text
  | .levelMax left right => left.mentions text || right.mentions text
  | _ => false

/-- A variable of the name is free in an argument. -/
def mentionedIn (text : String) : List (ArgMode × Expr) → Bool
  | [] => false
  | (_, argument) :: arguments => argument.mentions text || mentionedIn text arguments

end

end Expr

/-- Different texts have different names. -/
theorem NameTable.eq_of_idxOf? {table : NameTable} {text text' : String} {position : Nat}
    (found : table.texts.idxOf? text = some position)
    (found' : table.texts.idxOf? text' = some position) : text = text' := by
  rw [List.idxOf?, List.findIdx?_eq_some_iff_getElem] at found found'
  obtain ⟨_, isText, _⟩ := found
  obtain ⟨_, isText', _⟩ := found'
  exact (beq_iff_eq.1 isText).symm.trans (beq_iff_eq.1 isText')

theorem Context.lookup?_cons (domain : Domain) (context : Context) (name : Name) :
    lookup? (domain :: context) name =
      if domain.name = name then some 0 else (context.lookup? name).map (· + 1) := by
  simp only [lookup?, List.findIdx?_cons, beq_iff_eq]

/-- A name is found alike in both contexts, unless it is that of the new variable and no variable
inside of it has the same. -/
theorem Context.Inserts.lookup? {added : Domain} {position : Nat} {narrow wide : Context}
    {name : Name} (inserts : Inserts added position narrow wide)
    (shadowed : name = added.name → ∃ index < position, narrow.lookup? name = some index) :
    wide.lookup? name = (narrow.lookup? name).map (Phrase.raised 1 position) := by
  induction inserts with
  | here =>
    have other : added.name ≠ name := by
      intro same
      obtain ⟨_, below, _⟩ := shadowed same.symm
      exact absurd below (Nat.not_lt_zero _)
    rw [lookup?_cons, if_neg other]
    rfl
  | @under position narrow wide binder info ty ty' _ _ ih =>
    rw [lookup?_cons] at shadowed ⊢
    rw [lookup?_cons]
    by_cases isBinder : binder = name
    · simp [isBinder, Phrase.raised]
    · rw [if_neg isBinder] at shadowed ⊢
      rw [if_neg isBinder, ih, Option.map_map, Option.map_map]
      · congr 1
        funext index
        simp only [Function.comp_apply, Phrase.raised]
        split <;> split <;> omega
      · intro same
        obtain ⟨_, below, isNext⟩ := shadowed same
        obtain ⟨index, found, rfl⟩ := Option.map_eq_some_iff.1 isNext
        exact ⟨index, Nat.lt_of_succ_lt_succ below, found⟩

theorem Phrase.underBinder_raised (shift cutoff : Nat) :
    underBinder (raised shift cutoff) = raised shift (cutoff + 1) := by
  funext index
  cases index with
  | zero => rfl
  | succ index =>
    simp only [underBinder, raised]
    split <;> split <;> omega

theorem Level.ofTerm_rename (targets : Nat → Nat) (term : Term) :
    ofTerm (term.rename targets) = (ofTerm term).rename targets := by
  cases term <;> rfl

/-! ## Free variables of levels -/

namespace Phrase

variable {category : Category} {index depth : Nat} {counted : Occurrence}

theorem mem_freeFrom_succ {phrase : Phrase category}
    (present : index + 1 ∈ phrase.freeFrom counted depth) :
    index ∈ phrase.freeFrom counted (depth + 1) := by
  induction phrase generalizing depth with
  | var free =>
    simp only [freeFrom] at present ⊢
    split at present
    · have isFree := List.mem_singleton.1 present
      rw [if_pos (by omega), List.mem_singleton]
      omega
    · cases present
  | _ => grind [freeFrom]

theorem mem_freeFrom_level_iff {bound : Level} :
    index ∈ bound.freeFrom counted depth ↔
      ∃ term ∈ Level.terms bound, index ∈ term.freeFrom counted depth := by
  cases bound with | lub constant atoms =>
  change index ∈ atoms.freeFrom counted depth ↔ ∃ term ∈ atoms.atomList.map Atom.term, _
  rw [← ofAtoms_atomList atoms, atomList_ofAtoms]
  generalize atoms.atomList = list
  induction list with
  | nil => simp [ofAtoms, freeFrom]
  | cons first rest ih => simp [ofAtoms, freeFrom, ih]

theorem mem_freeFrom_ofTerm_iff {term : Term} :
    index ∈ (Level.ofTerm term).freeFrom counted depth ↔ index ∈ term.freeFrom counted depth := by
  cases term <;> simp [Level.ofTerm, Level.ofParts, ofAtoms, freeFrom]

theorem mem_freeFrom_join_iff {left right : Level} :
    index ∈ (Level.join left right).freeFrom counted depth ↔
      index ∈ left.freeFrom counted depth ∨ index ∈ right.freeFrom counted depth := by
  simp only [mem_freeFrom_level_iff, Level.mem_terms_join, or_and_right, exists_or]

theorem mem_freeFrom_raise?_iff {bound raised : Level} {offset : Nat}
    (isRaised : Level.raise? bound offset = some raised) :
    index ∈ raised.freeFrom counted depth ↔ index ∈ bound.freeFrom counted depth := by
  simp only [mem_freeFrom_level_iff, Level.eq_raise_of_raise? isRaised, Level.mem_terms_raise]

end Phrase

/-! ## The same names and nothing else -/

/-- If the second computation answers, so does the first, and neither has changed anything. -/
theorem Echoes.exists_of_yields {ε σ : Type} {related : α → β → Prop} {first : Attempt ε σ α}
    {second : Attempt ε σ β} {start start' after : σ} {value' : β}
    (echoes : Echoes related first start second start')
    (yields : Yields second start' value' after) :
    ∃ value, Yields first start value start ∧ after = start' ∧ related value value' := by
  obtain ⟨ends, still⟩ := echoes
  have isSecond := yields.1
  generalize isFirst : (first.run start).result = result at ends
  rw [isSecond] at ends
  cases ends with
  | @answers value _ holds =>
    obtain ⟨firstStill, secondStill⟩ := still isFirst isSecond
    exact ⟨value, ⟨isFirst, firstStill⟩, yields.2.symm.trans secondStill, holds⟩

namespace CheckM

variable {related : α → β → Prop} {checker : Checker} {narrow wide : Context}

/-- Where the second computation answers in the larger context, the first does in the smaller one,
and the answers are related.  Both enter the same names and change nothing else. -/
def Reflects (narrow wide : Context) (related : α → β → Prop) (checker : Checker)
    (first : CheckM α) (second : CheckM β) : Prop :=
  ∀ ⦃value' after'⦄, Yields second { checker with context := wide } value' after' →
    ∃ value names, checker.names.Grows names ∧ related value value' ∧
      Yields first { checker with context := narrow } value
        { checker with names, context := narrow } ∧
      after' = { checker with names, context := wide }

namespace Reflects

theorem pure {value : α} {value' : β} (holds : related value value') :
    Reflects narrow wide related checker (Pure.pure value) (Pure.pure value') := by
  intro _ _ yields
  obtain ⟨rfl, rfl⟩ := yields_pure_iff.1 yields
  exact ⟨value, checker.names, .refl _, holds, yields_pure_iff.2 ⟨rfl, rfl⟩, rfl⟩

theorem of_echoes {first : CheckM α} {second : CheckM β}
    (echoes : Echoes related first { checker with context := narrow } second
      { checker with context := wide }) :
    Reflects narrow wide related checker first second := by
  intro _ _ yields
  obtain ⟨value, isFirst, rfl, holds⟩ := echoes.exists_of_yields yields
  exact ⟨value, checker.names, .refl _, holds, isFirst, rfl⟩

theorem bind {α' β' : Type} {related' : α' → β' → Prop} {first : CheckM α} {second : CheckM β}
    {next : α → CheckM α'} {next' : β → CheckM β'}
    (reflects : Reflects narrow wide related checker first second)
    (continues : ∀ {value value' names}, checker.names.Grows names → related value value' →
      Reflects narrow wide related' { checker with names } (next value) (next' value')) :
    Reflects narrow wide related' checker (first >>= next) (second >>= next') := by
  intro _ _ yields
  obtain ⟨_, _, isSecond, isNext'⟩ := yields_bind_iff.1 yields
  obtain ⟨value, names, grows, holds, isFirst, rfl⟩ := reflects isSecond
  obtain ⟨last, names', grows', holds', isNext, rfl⟩ := continues grows holds isNext'
  exact ⟨last, names', grows.trans grows', holds', yields_bind_iff.2 ⟨_, _, isFirst, isNext⟩, rfl⟩

/-- Both enter the same names first. -/
theorem entering_bind {γ : Type} {enter : CheckM γ} {next : γ → CheckM α} {next' : γ → CheckM β}
    {value : γ} {names : NameTable}
    (enters : ∀ context, Yields enter { checker with context } value
      { checker with names, context })
    (grows : checker.names.Grows names)
    (continues : Reflects narrow wide related { checker with names } (next value) (next' value)) :
    Reflects narrow wide related checker (enter >>= next) (enter >>= next') := by
  intro _ _ yields
  obtain ⟨_, _, entered, isNext'⟩ := yields_bind_iff.1 yields
  obtain ⟨rfl, rfl⟩ := Yields.unique entered (enters wide)
  obtain ⟨last, names', grows', holds, isNext, rfl⟩ := continues isNext'
  exact ⟨last, names', grows.trans grows', holds,
    yields_bind_iff.2 ⟨_, _, enters narrow, isNext⟩, rfl⟩

theorem enterName_bind {text : String} {next : Name → CheckM α} {next' : Name → CheckM β}
    (continues : Reflects narrow wide related
      { checker with names := (checker.names.enterName text).2 }
      (next (checker.names.enterName text).1) (next' (checker.names.enterName text).1)) :
    Reflects narrow wide related checker (enterName text >>= next) (enterName text >>= next') :=
  entering_bind (fun _ => ⟨rfl, rfl⟩) (checker.names.grows_enterName text) continues

theorem enterPath_bind {text : String} {next : Path → CheckM α} {next' : Path → CheckM β}
    (continues : Reflects narrow wide related
      { checker with names := (checker.names.enterPath text).2 }
      (next (checker.names.enterPath text).1) (next' (checker.names.enterPath text).1)) :
    Reflects narrow wide related checker (enterPath text >>= next) (enterPath text >>= next') :=
  entering_bind (fun _ => ⟨rfl, rfl⟩) (checker.names.grows_enterPath text) continues

/-- Under a binder in both contexts. -/
theorem under {domain domain' : Domain} {body : CheckM α} {body' : CheckM β}
    (reflects : Reflects (domain :: narrow) (domain' :: wide) related checker body body') :
    Reflects narrow wide related checker (under [domain] body) (under [domain'] body') := by
  intro _ _ yields
  obtain ⟨inner, isUnder, rfl⟩ := yields_restoreScope_iff.1 yields
  obtain ⟨_, _, ⟨_, rfl⟩, isBody'⟩ := yields_bind_iff.1 isUnder
  obtain ⟨value, names, grows, holds, isBody, rfl⟩ := reflects isBody'
  refine ⟨value, names, grows, holds, yields_restoreScope_iff.2 ⟨_, yields_bind_iff.2
    ⟨(), _, ⟨rfl, rfl⟩, isBody⟩, ?_⟩, ?_⟩
  · simp [Context.truncate]
  · simp [Context.truncate]

end Reflects

/-- In the larger context the computation answers with the lifted phrase, and no placeholder occurs
in it. -/
abbrev Lifts {category : Category} (checker : Checker) (position : Nat) (narrow wide : Context)
    (first second : CheckM (Phrase category)) : Prop :=
  Reflects narrow wide
    (fun value value' => value.Ground ∧ value' = value.rename (Phrase.raised 1 position))
    checker first second

variable {added : Domain} {position : Nat} {text : String}

/-- The new variable has the name, and where the name is mentioned a variable inside of it has it
too. -/
structure Hides (checker : Checker) (added : Domain) (position : Nat) (narrow wide : Context)
    (text : String) (mentioned : Bool) : Prop extends
    Enlarges checker added position narrow wide where
  known : checker.names.texts.idxOf? text = some added.name.id
  shadowed : mentioned = true → ∃ index < position, narrow.lookup? added.name = some index

namespace Hides

variable {mentioned : Bool} {names : NameTable}

theorem grow (hides : Hides checker added position narrow wide text mentioned)
    (grows : checker.names.Grows names) :
    Hides { checker with names } added position narrow wide text mentioned :=
  { hides with known := NameTable.idxOf?_append_of_found grows.texts hides.known }

theorem weaken {mentioned' : Bool} (hides : Hides checker added position narrow wide text mentioned)
    (fewer : mentioned' = true → mentioned = true) :
    Hides checker added position narrow wide text mentioned' :=
  { hides with shadowed := fun isMentioned => hides.shadowed (fewer isMentioned) }

/-- Under one more binder. -/
theorem bind {text' : String} {name : Name} {ty : Ty} {inner : Bool}
    (hides : Hides checker added position narrow wide text mentioned) (info : ArgInfo)
    (isName : checker.names.texts.idxOf? text' = some name.id) (ground : ty.Ground)
    (fewer : (text' != text && inner) = true → mentioned = true) :
    Hides checker added (position + 1) (⟨name, info, ty⟩ :: narrow)
      (⟨name, info, ty.rename (Phrase.raised 1 position)⟩ :: wide) text inner where
  wellScoped := hides.wellScoped
  bodies := hides.bodies
  types := hides.types
  inserts := .under hides.inserts rfl
  ground := List.forall_mem_cons.2 ⟨ground, hides.ground⟩
  known := hides.known
  shadowed := by
    intro isMentioned
    by_cases same : name = added.name
    · exact ⟨0, Nat.zero_lt_succ _, by rw [Context.lookup?_cons, if_pos same]⟩
    · have other : text' ≠ text := by
        rintro rfl
        exact same (Name.ext (Option.some.inj (isName.symm.trans hides.known)))
      obtain ⟨index, below, found⟩ := hides.shadowed (fewer (by simp [other, isMentioned]))
      refine ⟨index + 1, Nat.succ_lt_succ below, ?_⟩
      rw [Context.lookup?_cons, if_neg same, found, Option.map_some]

end Hides

/-! ## Elaboration under one more variable -/

theorem lifts_resolveVariable {name : String}
    (hides : Hides checker added position narrow wide text (name == text)) :
    Lifts checker position narrow wide (resolveVariable name) (resolveVariable name) := by
  have grows := checker.names.grows_enterName name
  refine .enterName_bind (.of_echoes (.get_bind ?_))
  have isFound := checker.names.idxOf?_enterName name
  generalize (checker.names.enterName name).1 = found at isFound ⊢
  have lookup : wide.lookup? found = (narrow.lookup? found).map (Phrase.raised 1 position) := by
    refine hides.inserts.lookup? fun same => ?_
    have known := NameTable.idxOf?_append_of_found grows.texts hides.known
    rw [same] at isFound ⊢
    exact hides.shadowed (beq_iff_eq.2 (NameTable.eq_of_idxOf? isFound known))
  simp only [lookup]
  cases narrow.lookup? found with
  | none => exact .fail _ _
  | some index => exact .pure ⟨Phrase.ground_var _, rfl⟩

theorem lifts_resolveConstant (name : String) :
    Lifts checker position narrow wide (resolveConstant name) (resolveConstant name) := by
  refine .enterPath_bind (.of_echoes (.get_bind ?_))
  dsimp only
  split
  · exact .pure ⟨Phrase.ground_const _, rfl⟩
  · exact .fail _ _

theorem lifts_asType {term : Term} (enlarges : Enlarges checker added position narrow wide)
    (ground : term.Ground) :
    Lifts checker position narrow wide (asType term)
      (asType (term.rename (Phrase.raised 1 position))) := by
  refine .bind (.of_echoes (weakens_inferSort enlarges ground)) ?_
  rintro sort _ names _ ⟨sortGround, rfl⟩
  exact .pure ⟨Phrase.ground_classified_iff.2 ⟨sortGround, ground⟩, rfl⟩

theorem lifts_bind_asType {computation : CheckM Term} {mentioned : Bool}
    (hides : Hides checker added position narrow wide text mentioned)
    (lifts : Lifts checker position narrow wide computation computation) :
    Lifts checker position narrow wide (computation >>= asType) (computation >>= asType) := by
  refine .bind lifts ?_
  rintro term _ names grows ⟨ground, rfl⟩
  exact lifts_asType (hides.grow grows).toEnlarges ground

theorem lifts_asLevel {term : Term} (expression : Expr)
    (enlarges : Enlarges checker added position narrow wide) (ground : term.Ground) :
    Lifts checker position narrow wide (asLevel expression term)
      (asLevel expression (term.rename (Phrase.raised 1 position))) := by
  cases expression with
  | levelLit | levelSuc | levelMax => exact .pure ⟨ground.ofTerm, Level.ofTerm_rename _ term⟩
  | _ =>
    refine .of_echoes ((weakens_inferPhrase enlarges rfl ground).bind ?_)
    rintro ty _ _ ⟨tyGround, rfl⟩
    refine (echoes_equalTerm enlarges tyGround (Phrase.ground_const Path.level)).bind ?_
    intros
    exact .pure ⟨ground.ofTerm, Level.ofTerm_rename _ term⟩

/-- A function type whose domain and codomain are elaborated. -/
theorem lifts_functionType {text' : String} {domain codomain : CheckM Term} (info : ArgInfo)
    {mentioned inner : Bool} (hides : Hides checker added position narrow wide text mentioned)
    (domainLifts : ∀ {names}, checker.names.Grows names →
      Lifts { checker with names } position narrow wide domain domain)
    (codomainLifts : ∀ {names narrow wide}, checker.names.Grows names →
      Hides { checker with names } added (position + 1) narrow wide text inner →
      Lifts { checker with names } (position + 1) narrow wide codomain codomain)
    (fewer : (text' != text && inner) = true → mentioned = true) :
    let function : CheckM Term := do
      let name ← enterName text'
      let domain ← domain
      let domain ← asType domain
      let codomain ← under [⟨name, info, domain⟩] do
        let codomain ← codomain
        asType codomain
      Pure.pure (.pi name info domain codomain)
    Lifts checker position narrow wide function function := by
  have grows := checker.names.grows_enterName text'
  have isName := checker.names.idxOf?_enterName text'
  refine .enterName_bind (.bind (domainLifts grows) ?_)
  rintro term _ names later ⟨termGround, rfl⟩
  refine .bind (lifts_asType (hides.grow (grows.trans later)).toEnlarges termGround) ?_
  rintro domain _ names latest ⟨domainGround, rfl⟩
  replace latest := later.trans latest
  have known := NameTable.idxOf?_append_of_found latest.texts isName
  have hidesInner := (hides.grow (grows.trans latest)).bind info known domainGround fewer
  have typed := lifts_bind_asType hidesInner (codomainLifts (grows.trans latest) hidesInner)
  refine .bind (.under typed) ?_
  rintro codomain _ names grows ⟨codomainGround, rfl⟩
  refine .pure ⟨Phrase.ground_pi_iff.2 ⟨domainGround, codomainGround⟩, ?_⟩
  rw [← Phrase.underBinder_raised]
  rfl

mutual

/-- In a scope with one more variable, which is not mentioned, an expression means the lifted
term. -/
theorem lifts_elaborate :
    ∀ {checker position narrow wide} {expression : Expr}, expression.isHoleFree = true →
      Hides checker added position narrow wide text (expression.mentions text) →
      Lifts checker position narrow wide (elaborate expression) (elaborate expression)
  | _, _, _, _, .var name, _, hides => by
    rw [elaborate]
    exact lifts_resolveVariable hides
  | _, _, _, _, .const name, _, hides => by
    rw [elaborate]
    exact lifts_resolveConstant name
  | _, _, _, _, .app function arguments, holeFree, hides => by
    rw [elaborate]
    simp only [Expr.isHoleFree, Bool.and_eq_true] at holeFree
    simp only [Expr.mentions] at hides
    refine .bind (lifts_elaborate holeFree.1 (hides.weaken (by simp +contextual))) ?_
    rintro function _ names grows ⟨functionGround, rfl⟩
    refine .bind (lifts_elaborateArguments holeFree.2 functionGround
      ((hides.grow grows).weaken (by simp +contextual))) ?_
    rintro term _ names later ⟨ground, rfl⟩
    have enlarges := (hides.grow (grows.trans later)).toEnlarges
    refine .bind (.of_echoes (weakens_inferPhrase enlarges rfl ground)) ?_
    intros
    exact .pure ⟨ground, rfl⟩
  | _, _, _, _, .pi name info domain codomain, holeFree, hides => by
    rw [elaborate]
    simp only [Expr.isHoleFree, Bool.and_eq_true] at holeFree
    simp only [Expr.mentions] at hides
    exact lifts_functionType info hides
      (fun grows => lifts_elaborate holeFree.1 ((hides.grow grows).weaken (by simp +contextual)))
      (fun _ inner => lifts_elaborate holeFree.2 inner) (by simp +contextual)
  | _, _, _, _, .arrow domain codomain, holeFree, hides => by
    rw [elaborate]
    simp only [Expr.isHoleFree, Bool.and_eq_true] at holeFree
    simp only [Expr.mentions] at hides
    exact lifts_functionType {} hides
      (fun grows => lifts_elaborate holeFree.1 ((hides.grow grows).weaken (by simp +contextual)))
      (fun _ inner => lifts_elaborate holeFree.2 inner) (by simp +contextual)
  | _, _, _, _, .setAt level, holeFree, hides => by
    rw [elaborate]
    refine .bind (lifts_elaborate holeFree hides) ?_
    rintro term _ names grows ⟨ground, rfl⟩
    refine .bind (lifts_asLevel level (hides.grow grows).toEnlarges ground) ?_
    rintro bound _ names _ ⟨boundGround, rfl⟩
    exact .pure ⟨Phrase.ground_univ_iff.2 (Phrase.ground_set_iff.2 boundGround), rfl⟩
  | _, _, _, _, .set _, _, _ | _, _, _, _, .prop, _, _ | _, _, _, _, .setOmega, _, _
  | _, _, _, _, .sizeUniv, _, _ | _, _, _, _, .levelLit _, _, _ => by
    rw [elaborate]
    exact .pure ⟨Phrase.ground_iff.2 rfl, rfl⟩
  | checker, position, narrow, wide, .levelSuc level, holeFree, hides => by
    rw [elaborate]
    refine .bind (lifts_elaborate holeFree hides) ?_
    rintro term _ names grows ⟨ground, rfl⟩
    refine .bind (lifts_asLevel level (hides.grow grows).toEnlarges ground) ?_
    rintro bound _ names _ ⟨boundGround, rfl⟩
    have increasing := Phrase.strictMono_raised 1 position
    have tracks := Tracks.checked_map (Level.succ? bound) (·.rename (Phrase.raised 1 position))
    rw [Level.succ?, ← Level.raise?_rename increasing] at tracks
    refine .of_echoes (.lift_bind tracks ?_)
    rintro next _ succeeded rfl
    have nextGround := lawful_grounded.raise? boundGround (checked_eq_ok_iff.1 succeeded)
    exact .pure ⟨Phrase.ground_level_iff.2 nextGround, rfl⟩
  | _, position, _, _, .levelMax left right, holeFree, hides => by
    rw [elaborate]
    simp only [Expr.isHoleFree, Bool.and_eq_true] at holeFree
    simp only [Expr.mentions] at hides
    refine .bind (lifts_elaborate holeFree.1 (hides.weaken (by simp +contextual))) ?_
    rintro leftTerm _ names grows ⟨leftGround, rfl⟩
    refine .bind (lifts_asLevel left (hides.grow grows).toEnlarges leftGround) ?_
    rintro leftLevel _ names later ⟨leftGround, rfl⟩
    replace grows := grows.trans later
    refine .bind (lifts_elaborate holeFree.2 ((hides.grow grows).weaken (by simp +contextual))) ?_
    rintro rightTerm _ names later ⟨rightGround, rfl⟩
    refine .bind (lifts_asLevel right (hides.grow (grows.trans later)).toEnlarges rightGround) ?_
    rintro rightLevel _ names _ ⟨rightGround, rfl⟩
    refine .pure ⟨Phrase.ground_level_iff.2 (lawful_grounded.join leftGround rightGround), ?_⟩
    rw [Level.join_rename (Phrase.strictMono_raised 1 position)]
    rfl

theorem lifts_elaborateArguments :
    ∀ {checker position narrow wide} {function : Term} {arguments : List (ArgMode × Expr)},
      Expr.areHoleFree arguments = true → function.Ground →
      Hides checker added position narrow wide text (Expr.mentionedIn text arguments) →
      Lifts checker position narrow wide (elaborateArguments function arguments)
        (elaborateArguments (function.rename (Phrase.raised 1 position)) arguments)
  | _, _, _, _, _, [], _, ground, _ => by
    rw [elaborateArguments, elaborateArguments]
    exact .pure ⟨ground, rfl⟩
  | _, _, _, _, _, (mode, argument) :: arguments, holeFree, ground, hides => by
    rw [elaborateArguments, elaborateArguments]
    simp only [Expr.areHoleFree, Bool.and_eq_true] at holeFree
    simp only [Expr.mentionedIn] at hides
    refine .bind (lifts_elaborate holeFree.1 (hides.weaken (by simp +contextual))) ?_
    rintro term _ names grows ⟨termGround, rfl⟩
    exact lifts_elaborateArguments holeFree.2 (Phrase.ground_app_iff.2 ⟨ground, termGround⟩)
      ((hides.grow grows).weaken (by simp +contextual))

end

/-! ## Names that are mentioned -/

/-- A variable of the name is in scope, under the index. -/
def Finds (checker : Checker) (text : String) (index : Nat) : Prop :=
  ∃ name : Name, checker.names.texts.idxOf? text = some name.id ∧
    checker.context.lookup? name = some index

variable {before after : Checker} {index : Nat}

theorem known_of_enterName {name : Name} (yields : Yields (enterName text) before name after) :
    after.names.texts.idxOf? text = some name.id := by
  obtain ⟨entered, rfl⟩ := yields
  obtain rfl := Except.ok.inj entered
  exact before.names.idxOf?_enterName text

theorem Finds.stays (finds : Finds before text index) (consults : before.Consults after) :
    Finds after text index := by
  obtain ⟨name, known, found⟩ := finds
  refine ⟨name, NameTable.idxOf?_append_of_found consults.learns.names.texts known, ?_⟩
  rw [consults.context, found]

theorem Finds.bind {text' : String} {name : Name} (finds : Finds checker text index)
    (isName : checker.names.texts.idxOf? text' = some name.id) (other : text' ≠ text)
    (info : ArgInfo) (ty : Ty) :
    Finds { checker with context := ⟨name, info, ty⟩ :: checker.context } text (index + 1) := by
  obtain ⟨found, known, isFound⟩ := finds
  have different : name ≠ found := by
    rintro rfl
    exact other (NameTable.eq_of_idxOf? isName known)
  refine ⟨found, known, ?_⟩
  rw [Context.lookup?_cons, if_neg different, isFound, Option.map_some]

/-- What is free in the domain or, under the binder, in the codomain is free in the type. -/
theorem free_functionType {domain codomain : Expr} {term : Term} {text' : String} {info : ArgInfo}
    (yields : Yields (do
        let name ← enterName text'
        let domain ← elaborate domain
        let domain ← asType domain
        let codomain ← under [⟨name, info, domain⟩] do
          let codomain ← elaborate codomain
          asType codomain
        pure (.pi name info domain codomain)) before term after)
    (inDomain : ∀ {before after term index}, Yields (elaborate domain) before term after →
      domain.mentions text = true → Finds before text index →
      index ∈ term.freeFrom .anywhere 0)
    (inCodomain : ∀ {before after term index}, Yields (elaborate codomain) before term after →
      codomain.mentions text = true → Finds before text index →
      index ∈ term.freeFrom .anywhere 0)
    (mentioned : (domain.mentions text || (text' != text && codomain.mentions text)) = true)
    (finds : Finds before text index) : index ∈ term.freeFrom .anywhere 0 := by
  simp only [yields_bind_iff, yields_pure_iff] at yields
  obtain ⟨name, second, isName, domainTerm, third, isDomain, ty, fourth, isType, codomainType, _,
    isCodomain, rfl, rfl⟩ := yields
  replace finds := finds.stays ((Built.enterName text').consults isName)
  have consults := ((built_elaborate domain).consults isDomain).trans
    ((built_asType domainTerm).consults isType)
  obtain ⟨sort, rfl⟩ := yields_asType isType
  simp only [Phrase.freeFrom, List.mem_append, if_true]
  rcases Bool.or_eq_true _ _ ▸ mentioned with mentioned | mentioned
  · exact .inl (.inr (inDomain isDomain mentioned finds))
  · obtain ⟨other, mentioned⟩ := Bool.and_eq_true _ _ ▸ mentioned
    obtain ⟨_, isBody, _⟩ := yields_under_binder isCodomain
    obtain ⟨codomainTerm, _, isTerm, isCodomainType⟩ := yields_bind_iff.1 isBody
    obtain ⟨sort', rfl⟩ := yields_asType isCodomainType
    have known := NameTable.idxOf?_append_of_found consults.learns.names.texts
      (known_of_enterName isName)
    have inside := inCodomain isTerm mentioned
      ((finds.stays consults).bind known (bne_iff_ne.1 other) _ _)
    exact .inr (List.mem_append_right _ (Phrase.mem_freeFrom_succ inside))

mutual

/-- What is mentioned in an expression is free in the term that it means. -/
theorem free_elaborate :
    ∀ {before after : Checker} {term : Term} {index : Nat} (expression : Expr),
      Yields (elaborate expression) before term after → expression.mentions text = true →
      Finds before text index → index ∈ term.freeFrom .anywhere 0
  | before, _, _, _, .var name, yields, mentioned, ⟨found, known, isFound⟩ => by
    obtain rfl := beq_iff_eq.1 mentioned
    simp only [elaborate, resolveVariable, yields_bind_iff, yields_get_iff] at yields
    obtain ⟨entered, _, isEntered, _, _, ⟨rfl, rfl⟩, yields⟩ := yields
    have same : before.names.enterName name = (found, before.names) :=
      NameTable.enterName_eq_iff.2 known
    obtain ⟨rfl, rfl⟩ : found = entered ∧ _ := by
      simpa [Yields, enterName, same, modifyGet, MonadStateOf.modifyGet,
        MonadState.modifyGet] using isEntered
    rw [isFound] at yields
    obtain ⟨rfl, _⟩ := yields_pure_iff.1 yields
    simp [Phrase.freeFrom]
  | _, _, _, _, .app function arguments, yields, mentioned, finds => by
    simp only [elaborate, yields_bind_iff, yields_pure_iff] at yields
    obtain ⟨function', second, isFunction, _, third, isApplied, _, _, _, rfl, rfl⟩ := yields
    have later := finds.stays ((built_elaborate function).consults isFunction)
    refine free_elaborateArguments arguments isApplied ?_ later
    rcases Bool.or_eq_true _ _ ▸ mentioned with mentioned | mentioned
    · exact .inl (free_elaborate function isFunction mentioned finds)
    · exact .inr mentioned
  | _, _, _, _, .pi name info domain codomain, yields, mentioned, finds => by
    rw [elaborate] at yields
    exact free_functionType yields (free_elaborate domain) (free_elaborate codomain) mentioned finds
  | _, _, _, _, .arrow domain codomain, yields, mentioned, finds => by
    rw [elaborate] at yields
    exact free_functionType yields (free_elaborate domain) (free_elaborate codomain) mentioned finds
  | _, _, _, _, .setAt level, yields, mentioned, finds => by
    simp only [elaborate, yields_bind_iff, yields_pure_iff] at yields
    obtain ⟨term, _, isTerm, bound, _, isLevel, rfl, _⟩ := yields
    have inside := free_elaborate level isTerm mentioned finds
    rw [yields_asLevel isLevel]
    exact Phrase.mem_freeFrom_ofTerm_iff.2 inside
  | _, _, _, _, .levelSuc level, yields, mentioned, finds => by
    simp only [elaborate, yields_bind_iff, yields_lift_iff, checked_eq_ok_iff,
      yields_pure_iff] at yields
    obtain ⟨term, _, isTerm, bound, _, isLevel, next, _, ⟨succeeded, rfl⟩, rfl, _⟩ := yields
    have inside := free_elaborate level isTerm mentioned finds
    rw [← Phrase.mem_freeFrom_ofTerm_iff, ← yields_asLevel isLevel] at inside
    exact (Phrase.mem_freeFrom_raise?_iff succeeded).2 inside
  | _, _, _, _, .levelMax left right, yields, mentioned, finds => by
    simp only [elaborate, yields_bind_iff, yields_pure_iff] at yields
    obtain ⟨leftTerm, second, isLeft, leftLevel, third, isLeftLevel, rightTerm, _, isRight,
      rightLevel, _, isRightLevel, rfl, _⟩ := yields
    have consults := ((built_elaborate left).consults isLeft).trans
      ((built_asLevel left leftTerm).consults isLeftLevel)
    rw [yields_asLevel isLeftLevel, yields_asLevel isRightLevel]
    refine Phrase.mem_freeFrom_join_iff.2 ?_
    simp only [Phrase.mem_freeFrom_ofTerm_iff]
    rcases Bool.or_eq_true _ _ ▸ mentioned with mentioned | mentioned
    · exact .inl (free_elaborate left isLeft mentioned finds)
    · exact .inr (free_elaborate right isRight mentioned (finds.stays consults))

theorem free_elaborateArguments :
    ∀ {before after : Checker} {function term : Term} {index : Nat}
      (arguments : List (ArgMode × Expr)),
      Yields (elaborateArguments function arguments) before term after →
      index ∈ function.freeFrom .anywhere 0 ∨ Expr.mentionedIn text arguments = true →
      Finds before text index → index ∈ term.freeFrom .anywhere 0
  | _, _, _, _, _, [], yields, free, _ => by
    rw [elaborateArguments, yields_pure_iff] at yields
    simpa [← yields.1, Expr.mentionedIn] using free
  | _, _, _, _, _, (mode, argument) :: arguments, yields, free, finds => by
    rw [elaborateArguments, yields_bind_iff] at yields
    obtain ⟨argument', _, isArgument, isApplied⟩ := yields
    refine free_elaborateArguments arguments isApplied ?_
      (finds.stays ((built_elaborate argument).consults isArgument))
    simp only [Phrase.freeFrom, List.mem_append]
    rw [Expr.mentionedIn, Bool.or_eq_true] at free
    rcases free with inFunction | inArgument | inArguments
    · exact .inl (.inl inFunction)
    · exact .inl (.inr (by simpa using free_elaborate argument isArgument inArgument finds))
    · exact .inr inArguments

end

/-- A function type that is written with an arrow still binds a variable, of the name `_`.  Where no
placeholder occurs, the codomain means what it means outside of the arrow, lifted over that
variable, unless it mentions the name; then the variable is free in it. -/
theorem elaborate_arrow {checker after : Checker} {domain codomain : Expr} {term : Term}
    (reachable : Reachable checker) (solid : checker.Solid) (domainFree : domain.isHoleFree = true)
    (codomainFree : codomain.isHoleFree = true)
    (yields : Yields (elaborate (.arrow domain codomain)) checker term after) :
    ∃ name domainType codomainType middle,
      Yields (enterName "_" >>= fun _ => elaborateType domain) checker domainType middle ∧
        term = .pi name {} domainType codomainType ∧
        if codomain.mentions "_" then
          0 ∈ (codomainType.term.freeVariables .anywhere).toList
        else
          ∃ result, Yields (elaborate codomain) middle result after ∧
            codomainType.term.strengthen? 1 = some result := by
  simp only [elaborate, yields_bind_iff, yields_pure_iff] at yields
  obtain ⟨name, second, isName, domainTerm, third, isDomain, domainType, middle, isType,
    codomainType, _, isCodomain, rfl, rfl⟩ := yields
  refine ⟨name, domainType, codomainType, middle, yields_bind_iff.2 ⟨name, second, isName,
    yields_bind_iff.2 ⟨domainTerm, third, isDomain, isType⟩⟩, rfl, ?_⟩
  have consults := ((built_elaborate domain).consults isDomain).trans
    ((built_asType domainTerm).consults isType)
  have known := NameTable.idxOf?_append_of_found consults.learns.names.texts
    (known_of_enterName isName)
  split
  · obtain ⟨_, isBody, _⟩ := yields_under_binder isCodomain
    obtain ⟨codomainTerm, _, isTerm, isCodomainType⟩ := yields_bind_iff.1 isBody
    obtain ⟨sort', rfl⟩ := yields_asType isCodomainType
    have finds : Finds { middle with context := ⟨name, {}, domainType⟩ :: middle.context } "_" 0 :=
      ⟨name, known, by rw [Context.lookup?_cons, if_pos rfl]⟩
    exact Positions.mem_ofList.2 (free_elaborate codomain isTerm ‹_› finds)
  · rename_i unmentioned
    have elaborated : Yields (elaborateType domain) second domainType middle :=
      yields_bind_iff.2 ⟨domainTerm, third, isDomain, isType⟩
    have secondWellScoped := ((steady_enterName "_" reachable.wellScoped).of_yields isName).1
    have wellScoped := ((steady_elaborateType domain secondWellScoped).of_yields elaborated).1
    obtain ⟨secondSolid, _⟩ := solidly_enterName "_" solid isName
    obtain ⟨middleSolid, _⟩ :=
      lawful_grounded.elaborateType (.inr domainFree) secondSolid elaborated
    have hides : Hides middle ⟨name, {}, domainType⟩ 0 middle.context
        (⟨name, {}, domainType⟩ :: middle.context) "_" (codomain.mentions "_") :=
      { wellScoped := wellScoped.state
        bodies := middleSolid.state.bodies
        types := middleSolid.state.types
        inserts := .here
        ground := middleSolid.context
        known
        shadowed := fun mentioned => absurd mentioned unmentioned }
    obtain ⟨_, isBody, rfl⟩ := yields_restoreScope_iff.1 isCodomain
    obtain ⟨_, _, ⟨_, rfl⟩, isBody⟩ := yields_bind_iff.1 isBody
    obtain ⟨_, _, isTerm, isCodomainType⟩ := yields_bind_iff.1 isBody
    obtain ⟨result, names, grows, ⟨ground, rfl⟩, isResult, rfl⟩ :=
      lifts_elaborate codomainFree hides isTerm
    obtain ⟨sort, _, isSort, isClassified⟩ := yields_bind_iff.1 isCodomainType
    obtain ⟨rfl, rfl⟩ := yields_pure_iff.1 isClassified
    obtain ⟨_, _, rfl, _⟩ :=
      (weakens_inferSort (hides.grow grows).toEnlarges ground).exists_of_yields isSort
    refine ⟨result, ?_, Phrase.strengthen?_eq_some_iff.2 rfl⟩
    simpa [Context.truncate] using isResult

/-- A family over a set. -/
def indexedFamily : List Declaration :=
  [ .postulate "T" (.set 0),
    .postulate "S" (.arrow (.const "T") (.set 0)) ]

/-- The codomain of the arrow binds the name itself. -/
theorem elaborate_arrow_shadowed :
    let checker := ((checkDeclarations indexedFamily).run (Checker.initial {} .patterns 40)).state
    let codomain : Expr :=
      .pi "_" {} (.const "T") (.app (.const "S") [(.explicit, .var "_")])
    let outcome := (elaborate (.arrow (.const "T") codomain)).run checker
    outcome.result.isOk = true ∧ codomain.mentions "_" = false ∧
      ∃ name domainType codomainType middle result,
        outcome.result = .ok (.pi name {} domainType codomainType) ∧
          Yields (elaborate codomain) middle result outcome.state ∧
          codomainType.term.strengthen? 1 = some result := by
  intro checker codomain outcome
  have reachable : Reachable checker := .ends (.initial {} .patterns 40) (.check indexedFamily) rfl
  have types : ∀ entry ∈ checker.state.signature.values,
      entry.definition.ty.hasPlaceholder = false := by
    decide +kernel
  have solid : checker.Solid :=
    ⟨⟨by decide +kernel, fun entry present => Phrase.ground_iff.2 (types entry present), by rfl⟩,
      by simp [Telescope.Ground, show checker.context = [] from rfl]⟩
  have isOk : outcome.result.isOk = true := by decide +kernel
  have unmentioned : codomain.mentions "_" = false := by decide +kernel
  obtain ⟨term, answered, name, domainType, codomainType, middle, _, rfl, stated⟩ :=
    exists_ok_of_isOk isOk fun term answered => elaborate_arrow reachable solid (by decide +kernel)
      (by decide +kernel) (.of_result answered)
  rw [unmentioned] at stated
  obtain ⟨result, isResult, strengthened⟩ := stated
  exact ⟨isOk, unmentioned, name, domainType, codomainType, middle, result, answered, isResult,
    strengthened⟩

/-- A set that is used before its type is known. -/
def unknownSet : List Declaration :=
  [ .postulate "K" .hole,
    .postulate "k" (.const "K"),
    .postulate "T" (.set 0) ]

/-- The codomain of an arrow may be its argument.  Where placeholders occur, the argument may also
occur in the sorts inside of the codomain. -/
theorem arrows_with_dependencies :
    let initial := Checker.initial {} .patterns 40
    let checker := ((checkDeclarations unknownSet).run initial).state
    let codomain : Expr := .arrow (.const "T") (.arrow (.const "K") (.const "K"))
    let codomain? (outcome : Outcome CheckError Checker Term) : Option Term :=
      outcome.result.toOption.bind (·.codomain? 1)
    (codomain? ((elaborate (.arrow (.set 0) (.var "_"))).run initial) = some (.var 0) ∧
      ((elaborate (.var "_")).run initial).result =
        .error (.error (.scope (.unboundVariable "_")))) ∧
    (codomain.mentions "_" = false ∧
      ((codomain? ((elaborate (.arrow (.set 0) codomain)).run checker)).map (·.strengthen? 1)) =
        some none) := by
  decide +kernel

end CheckM

end Families
