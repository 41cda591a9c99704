import Families.Proofs.Registration

/-!
# Faithful names

A path is entered segment by segment, and what is shown of it is the text that was entered.  So
equal paths come from equal texts, however much is entered before, in between and afterwards, and
what was entered stays before all that is new.
-/

namespace Families

namespace Path

theorem split_ne_nil (text : List Char) : split text ≠ [] := by
  fun_cases split text <;> simp_all

/-- Joining what was cut at every `::` gives the text back, also where colons overlap. -/
theorem intercalate_split (text : List Char) : [':', ':'].intercalate (split text) = text := by
  fun_induction split text with
  | case1 rest ih =>
    obtain ⟨segment, segments, isSplit⟩ := List.exists_cons_of_ne_nil (split_ne_nil rest)
    rw [isSplit] at ih ⊢
    simpa [List.intercalate] using ih
  | case2 => rfl
  | case3 _ rest _ isSplit => exact absurd isSplit (split_ne_nil rest)
  | case4 _ rest _ segment segments isSplit ih =>
    rw [isSplit] at ih
    cases segments <;> simpa [List.intercalate] using ih

end Path

namespace NameTable

variable {table later : NameTable} {text : String} {path : Path} {texts : List String}
variable {names : List Name}

/-! ## Reading what was entered -/

theorem text_of_idxOf? {name : Name} (found : table.texts.idxOf? text = some name.id) :
    table.text name = text := by
  obtain ⟨inside, same, _⟩ := List.findIdx?_eq_some_iff_getElem.1 found
  rw [NameTable.text, List.getD_eq_getElem _ _ inside]
  exact eq_of_beq same

theorem segments_of_idxOf? (found : table.paths.idxOf? names = some path.id) :
    table.segments path = names := by
  obtain ⟨inside, same, _⟩ := List.findIdx?_eq_some_iff_getElem.1 found
  rw [segments, List.getD_eq_getElem _ _ inside]
  exact eq_of_beq same

theorem KnowsNames.map_text (knows : table.KnowsNames texts names) :
    names.map table.text = texts := by
  induction knows with
  | nil => rfl
  | cons found _ ih => rw [List.map_cons, ih, text_of_idxOf? found]

theorem KnowsNames.entered (knows : table.KnowsNames texts names) :
    ∀ name ∈ names, name.id < table.texts.length := by
  induction knows with
  | nil => simp
  | cons found _ ih =>
    exact List.forall_mem_cons.2 ⟨(List.findIdx?_eq_some_iff_getElem.1 found).1, ih⟩

/-- A path that is known is shown as its text. -/
theorem Knows.display (knows : table.Knows text path) : table.display path = text := by
  obtain ⟨segments, known, found⟩ := knows_iff.1 knows
  rw [NameTable.display, segments_of_idxOf? found, known.map_text, ← String.toList_inj,
    String.toList_intercalate, List.map_map]
  simpa [Function.comp_def] using Path.intercalate_split text.toList

/-! ## Entering more -/

/-- One table becomes another as names and paths are entered.  A path is entered as a text, or by
segments that were entered before. -/
inductive Interns (table : NameTable) : NameTable → Prop where
  | refl : Interns table table
  | name {later : NameTable} (text : String) :
      Interns table later → Interns table (later.enterName text).2
  | path {later : NameTable} (text : String) :
      Interns table later → Interns table (later.enterPath text).2
  | segments {later : NameTable} {names : List Name} :
      (∀ name ∈ names, name.id < later.texts.length) → Interns table later →
      Interns table (later.enterSegments names).2

theorem Interns.grows (interns : table.Interns later) : table.Grows later := by
  induction interns with
  | refl => exact .refl table
  | name text _ ih => exact ih.trans (grows_enterName _ text)
  | path text _ ih => exact ih.trans (grows_enterPath _ text)
  | segments _ _ ih => exact ih.trans (grows_enterSegments _ _)

/-- Paths are made of names that were entered. -/
def IsFilled (table : NameTable) : Prop :=
  ∀ names ∈ table.paths, ∀ name ∈ names, name.id < table.texts.length

theorem IsFilled.enterNames (filled : table.IsFilled) (texts : List String) :
    (table.enterNames texts).2.IsFilled := by
  induction texts generalizing table with
  | nil => exact filled
  | cons text texts ih =>
    refine @ih (table.enterName text).2 fun names present name isName => ?_
    have samePaths : (table.enterName text).2.paths = table.paths := by
      unfold enterName
      split <;> rfl
    rw [samePaths] at present
    exact (filled names present name isName).trans_le (grows_enterName table text).texts.length_le

theorem IsFilled.enterSegments (filled : table.IsFilled)
    (entered : ∀ name ∈ names, name.id < table.texts.length) :
    (table.enterSegments names).2.IsFilled := by
  unfold NameTable.enterSegments
  split
  · exact filled
  · intro other present
    rcases List.mem_append.1 present with earlier | new
    · exact filled other earlier
    · exact List.mem_singleton.1 new ▸ entered

theorem Interns.isFilled (interns : table.Interns later) (filled : table.IsFilled) :
    later.IsFilled := by
  induction interns with
  | refl => exact filled
  | name text _ ih => exact ih.enterNames [text]
  | path text _ ih => exact (ih.enterNames _).enterSegments (knowsNames_enterNames _ _).entered
  | segments entered _ ih => exact ih.enterSegments entered

theorem Grows.text_eq {name : Name} (grows : table.Grows later)
    (entered : name.id < table.texts.length) : later.text name = table.text name := by
  obtain ⟨rest, isRest⟩ := grows.texts
  rw [NameTable.text, NameTable.text, ← isRest, List.getD_append _ _ _ _ entered]

theorem Grows.segments_eq (grows : table.Grows later) (entered : path.id < table.paths.length) :
    later.segments path = table.segments path := by
  obtain ⟨rest, isRest⟩ := grows.paths
  rw [segments, segments, ← isRest, List.getD_append _ _ _ _ entered]

theorem Grows.display_eq (grows : table.Grows later) (filled : table.IsFilled)
    (entered : path.id < table.paths.length) : later.display path = table.display path := by
  have present : table.segments path ∈ table.paths := by
    rw [segments, List.getD_eq_getElem _ _ entered]
    exact List.getElem_mem entered
  rw [display, display, grows.segments_eq entered]
  congr 1
  exact List.map_congr_left fun name isName => grows.text_eq (filled _ present name isName)

/-- What is found near the beginning of a list is found in the beginning itself. -/
theorem idxOf?_of_isPrefix {α : Type} [BEq α] {short long : List α} {element : α} {position : Nat}
    (grows : short <+: long) (found : long.idxOf? element = some position)
    (inside : position < short.length) : short.idxOf? element = some position := by
  obtain ⟨rest, rfl⟩ := grows
  simp only [List.idxOf?, List.findIdx?_append] at found ⊢
  cases isFound : short.findIdx? (· == element) with
  | some position' => simpa [isFound] using found
  | none =>
    obtain ⟨_, _, rfl⟩ := Option.map_eq_some_iff.1 (by simpa [isFound] using found)
    omega

/-- A text whose path was entered before stood among the paths. -/
theorem Knows.of_grows (knows : later.Knows text path) (grows : table.Grows later)
    (filled : table.IsFilled) (entered : path.id < table.paths.length) : table.Knows text path := by
  obtain ⟨names, known, found⟩ := knows_iff.1 knows
  have found' := idxOf?_of_isPrefix grows.paths found entered
  have present : names ∈ table.paths := by
    obtain ⟨inside, same, _⟩ := List.findIdx?_eq_some_iff_getElem.1 found'
    exact eq_of_beq same ▸ List.getElem_mem inside
  refine knows_iff.2 ⟨names, ?_, found'⟩
  -- The names of its segments were entered as well, so the same texts are found for them.
  refine List.forall₂_iff_get.2 ⟨known.length_eq, fun i _ inNames => ?_⟩
  exact idxOf?_of_isPrefix grows.texts (known.get _ inNames)
    (filled names present _ (List.get_mem names ⟨i, inNames⟩))

/-- Whatever was entered before and is entered afterwards: a path is shown as its text, and its text
alone leads to it; so it is with names.  What was entered keeps its text and stays before all that
is new. -/
theorem enter_faithful (reached : empty.Interns table) :
    (∀ text later, (table.enterPath text).2.Interns later →
      later.display (table.enterPath text).1 = text ∧
        ∀ other, (later.enterPath other).1 = (table.enterPath text).1 ↔ other = text) ∧
    (∀ text later, (table.enterName text).2.Interns later →
      later.text (table.enterName text).1 = text ∧
        ∀ other, (later.enterName other).1 = (table.enterName text).1 ↔ other = text) ∧
    ∀ later, table.Interns later →
      (∀ name : Name, name.id < table.texts.length → later.text name = table.text name ∧
        ∀ text ∉ table.texts, name.id < (later.enterName text).1.id) ∧
      ∀ path : Path, path.id < table.paths.length → later.display path = table.display path ∧
        ∀ text, (∀ other, ¬table.Knows text other) → path.id < (later.enterPath text).1.id := by
  have filled := reached.isFilled (by simp [IsFilled, empty])
  refine ⟨fun text later interns => ?_, fun text later interns => ?_, fun later interns => ?_⟩
  · have knows := (table.knows_enterPath text).mono interns.grows
    refine ⟨knows.display, fun other => ⟨fun same => ?_, ?_⟩⟩
    · have knows' := later.knows_enterPath other
      have shown := (knows.mono (grows_enterPath later other)).display
      rw [← same, knows'.display] at shown
      exact shown
    · rintro rfl
      exact (Prod.ext_iff.1 knows).1
  · have found := idxOf?_append_of_found interns.grows.texts (table.idxOf?_enterName text)
    refine ⟨text_of_idxOf? found, fun other => ⟨fun same => ?_, ?_⟩⟩
    · have found' := later.idxOf?_enterName other
      have kept := idxOf?_append_of_found (grows_enterName later other).texts found
      rw [← same] at kept
      exact (text_of_idxOf? found').symm.trans (text_of_idxOf? kept)
    · rintro rfl
      exact (Prod.ext_iff.1 (enterName_eq_iff.2 found)).1
  · have grows := interns.grows
    refine ⟨fun name entered => ⟨grows.text_eq entered, fun text absent => ?_⟩,
      fun path entered => ⟨grows.display_eq filled entered, fun text unknown => ?_⟩⟩
    · by_contra before
      refine absent (List.isSome_idxOf?.1 ?_)
      rw [idxOf?_of_isPrefix (grows.trans (grows_enterName later text)).texts
        (later.idxOf?_enterName text) (by omega)]
      rfl
    · by_contra before
      exact unknown _ ((later.knows_enterPath text).of_grows
        (grows.trans (grows_enterPath later text)) filled (by omega))

theorem enter_faithful_colons :
    let table := (empty.enterPath "a:::b").2
    let later := ((table.enterPath "").2.enterPath "a::::b").2
    (table.segments (empty.enterPath "a:::b").1).map table.text = ["a", ":b"] ∧
      later.display (table.enterPath "").1 = "" ∧
      (later.enterPath "a:::b").1 ≠ (table.enterPath "").1 ∧
      later.display ⟨0⟩ = "a:::b" := by
  intro table later
  have reached : empty.Interns table := .path "a:::b" .refl
  obtain ⟨paths, _, kept⟩ := enter_faithful reached
  have shown := paths "" later (.path _ .refl)
  have stays := ((kept later (.path _ (.path _ .refl))).2 ⟨0⟩ (by decide)).1
  refine ⟨by decide, shown.1, fun same => ?_, stays.trans (by decide)⟩
  exact absurd ((shown.2 _).1 same) (by decide)

end NameTable

end Families
