import OtEditor.DiffMatchPatch.CleanupSemantic

/-!
# Whole lines as single characters

To compare long texts line by line the library writes one character for each line, the index
of the line in a table (`diffLinesToChars`), and puts the lines back into the diff afterwards
(`diffCharsToLines`). The characters stand for the texts (`diffLinesToChars_spec`), so a diff
of the characters becomes a diff of the texts (`spells_diffCharsToLines`).

The table is found through a plain JavaScript object with the lines as its properties. A first
text whose last line is `hasOwnProperty` hides the method of this name, and then the first
lookup for the second text throws (`diffLinesToChars_eq_error_iff`).
-/

namespace OtEditor.DiffMatchPatch

/-- The array of lines and the object that maps lines to their indices. -/
structure Lines where
  lineArray : List Text
  lineHash : Text → Option ℕ

/-- `lineHash[line] = index`. A number is ignored as a `__proto__`. -/
def setProperty (lineHash : Text → Option ℕ) (line : Text) (index : ℕ) : Text → Option ℕ :=
  if line = utf16 "__proto__" then lineHash else Function.update lineHash line (some index)

/-- A new line in the array and in the object. -/
def Lines.add (lines : Lines) (line : Text) : Lines :=
  ⟨lines.lineArray ++ [line], setProperty lines.lineHash line lines.lineArray.length⟩

@[simp] theorem Lines.lineArray_add (lines : Lines) (line : Text) :
    (lines.add line).lineArray = lines.lineArray ++ [line] :=
  rfl

@[simp] theorem Lines.lineHash_add (lines : Lines) (line : Text) :
    (lines.add line).lineHash = setProperty lines.lineHash line lines.lineArray.length :=
  rfl

/-- The newline that ends the line from `lineStart`, or the last position of the text. -/
def lineEndFrom (text : Text) (lineStart : ℕ) : ℕ :=
  (indexOf text [10] lineStart).getD (text.length - 1)

theorem le_lineEndFrom {text : Text} {lineStart : ℕ} (h : lineStart < text.length) :
    lineStart ≤ lineEndFrom text lineStart := by
  rw [lineEndFrom]
  rcases hend : indexOf text [10] lineStart with _ | lineEnd
  · rw [Option.getD_none]
    omega
  · exact (indexOf_eq_some hend).1

/-- The name of the method that the lookup calls. -/
def hasOwnProperty : Text :=
  utf16 "hasOwnProperty"

/-- `diff_linesToCharsMunge_`, from the line that starts at `lineStart`, with the characters so
far. -/
def diffLinesToCharsMunge (maxLines : ℕ) (text : Text) (lineStart : ℕ) (lines : Lines)
    (chars : Text) : Except Stop (Text × Lines) :=
  if hstart : lineStart < text.length then
    have _hend := le_lineEndFrom hstart
    let lineEnd := lineEndFrom text lineStart
    -- an own property of this name is a number, which cannot be called
    if (lines.lineHash hasOwnProperty).isSome then .error .typeError
    else
      match lines.lineHash (substring text lineStart (lineEnd + 1)) with
      | some index =>
        diffLinesToCharsMunge maxLines text (lineEnd + 1) lines (chars ++ [UInt16.ofNat index])
      | none =>
        let char := UInt16.ofNat lines.lineArray.length
        -- bail out, as there are only so many characters
        if lines.lineArray.length = maxLines then
          diffLinesToCharsMunge maxLines text (text.length + 1)
            (lines.add (substringFrom text lineStart)) (chars ++ [char])
        else
          diffLinesToCharsMunge maxLines text (lineEnd + 1)
            (lines.add (substring text lineStart (lineEnd + 1))) (chars ++ [char])
  else .ok (chars, lines)
termination_by text.length - lineStart
decreasing_by all_goals omega

/-- The encoded texts, and the lines that their characters stand for. -/
structure Encoded where
  chars1 : Text
  chars2 : Text
  lineArray : List Text

/-- `diff_linesToChars_`. -/
def diffLinesToChars (text1 text2 : Text) : Except Stop Encoded := do
  let (chars1, lines) ← diffLinesToCharsMunge 40000 text1 0 ⟨[[]], fun _ => none⟩ []
  let (chars2, lines) ← diffLinesToCharsMunge 65535 text2 0 lines []
  return ⟨chars1, chars2, lines.lineArray⟩

/-- The lines of some characters, joined. An undefined one is joined as an empty text. -/
def joinLines (lineArray : List Text) (chars : Text) : Text :=
  chars.flatMap fun char => lineArray.getD char.toNat []

/-- `diff_charsToLines_`. -/
def diffCharsToLines (diffs : List Diff) (lineArray : List Text) : List Diff :=
  diffs.map fun diff => ⟨diff.diffType, joinLines lineArray diff.content⟩

/-! ## The characters stand for the texts -/

/-- Every character stands for a line, and the lines are those of the text. -/
structure Encodes (lineArray : List Text) (chars text : Text) : Prop where
  known : ∀ char ∈ chars, ∃ line, line ≠ [] ∧ lineArray[char.toNat]? = some line
  joined : joinLines lineArray chars = text

variable {lineArray lineArray' : List Text} {chars text : Text}

theorem encodes_nil (lineArray : List Text) : Encodes lineArray [] [] :=
  ⟨fun _ h => absurd h List.not_mem_nil, rfl⟩

theorem joinLines_append (lineArray : List Text) (chars chars' : Text) :
    joinLines lineArray (chars ++ chars') =
      joinLines lineArray chars ++ joinLines lineArray chars' :=
  List.flatMap_append

/-- A longer table still knows the lines. -/
theorem Encodes.mono (h : Encodes lineArray chars text) (hpre : lineArray <+: lineArray') :
    Encodes lineArray' chars text := by
  have hlook {char : Symbol} {line : Text} (hline : lineArray[char.toNat]? = some line) :
      lineArray'[char.toNat]? = some line := by
    obtain ⟨more, rfl⟩ := hpre
    rwa [List.getElem?_append_left (List.getElem?_eq_some_iff.1 hline).1]
  refine ⟨fun char hchar => ?_, ?_⟩
  · obtain ⟨line, hne, hline⟩ := h.known char hchar
    exact ⟨line, hne, hlook hline⟩
  · rw [← h.joined]
    refine List.flatMap_congr fun char hchar => ?_
    obtain ⟨line, -, hline⟩ := h.known char hchar
    rw [List.getD_eq_getElem?_getD, List.getD_eq_getElem?_getD, hlook hline, hline]

/-- One more character, for one more line. -/
theorem Encodes.snoc (h : Encodes lineArray chars text) {index : ℕ} {line : Text}
    (hindex : index < 65536) (hne : line ≠ []) (hline : lineArray[index]? = some line) :
    Encodes lineArray (chars ++ [UInt16.ofNat index]) (text ++ line) := by
  have hnat : (UInt16.ofNat index).toNat = index := UInt16.toNat_ofNat_of_lt' hindex
  refine ⟨fun char hchar => ?_, ?_⟩
  · rcases List.mem_append.1 hchar with hchar | hchar
    · exact h.known char hchar
    · rw [List.mem_singleton.1 hchar, hnat]
      exact ⟨line, hne, hline⟩
  · rw [joinLines_append, h.joined, joinLines, List.flatMap_singleton, hnat,
      List.getD_eq_getElem?_getD, hline, Option.getD_some]

/-- There are no more characters than the text has. -/
theorem length_le_joinLines : ∀ {chars : Text}, (∀ char ∈ chars, ∃ line, line ≠ [] ∧
    lineArray[char.toNat]? = some line) → chars.length ≤ (joinLines lineArray chars).length
  | [], _ => le_rfl
  | char :: chars, h => by
    obtain ⟨line, hne, hline⟩ := h char List.mem_cons_self
    have hrest := length_le_joinLines fun char hchar => h char (List.mem_cons_of_mem _ hchar)
    have hpos := List.length_pos_iff.2 hne
    have hjoin : joinLines lineArray (char :: chars) = line ++ joinLines lineArray chars := by
      rw [joinLines, List.flatMap_cons, List.getD_eq_getElem?_getD, hline, Option.getD_some,
        joinLines]
    rw [hjoin, List.length_append, List.length_cons]
    omega

theorem Encodes.length_le (h : Encodes lineArray chars text) : chars.length ≤ text.length :=
  (length_le_joinLines h.known).trans_eq (congrArg List.length h.joined)

/-- What the object finds is in the array, with an index that fits a character. -/
def Lines.Sound (lines : Lines) : Prop :=
  ∀ line index, lines.lineHash line = some index →
    line ≠ [] ∧ index < 65536 ∧ lines.lineArray[index]? = some line

theorem Lines.Sound.add {lines : Lines} (h : lines.Sound) {line : Text} (hne : line ≠ [])
    (hroom : lines.lineArray.length < 65536) : (lines.add line).Sound := by
  have hold (line' : Text) (index : ℕ) (hfound : lines.lineHash line' = some index) :
      line' ≠ [] ∧ index < 65536 ∧ (lines.add line).lineArray[index]? = some line' := by
    obtain ⟨hne', hindex, hline⟩ := h line' index hfound
    refine ⟨hne', hindex, ?_⟩
    rwa [Lines.lineArray_add, List.getElem?_append_left (List.getElem?_eq_some_iff.1 hline).1]
  intro line' index hfound
  rw [Lines.lineHash_add, setProperty] at hfound
  split_ifs at hfound with hproto
  · exact hold line' index hfound
  · rcases eq_or_ne line' line with rfl | hother
    · rw [Function.update_self] at hfound
      obtain rfl := Option.some.inj hfound
      exact ⟨hne, hroom, by simp⟩
    · rw [Function.update_of_ne hother] at hfound
      exact hold line' index hfound

/-- What `indexOf` finds for a newline is one. -/
theorem getElem?_of_indexOf {text : Text} {c : Symbol} {start i : ℕ}
    (h : indexOf text [c] start = some i) : text[i]? = some c := by
  obtain ⟨-, hfits, htext⟩ := indexOf_eq_some h
  have hlength : (text.take i).length = i := by
    rw [List.length_take]
    rw [List.length_singleton] at hfits
    omega
  rw [htext, List.append_assoc, List.getElem?_append_right hlength.le, hlength, Nat.sub_self]
  rfl

/-- The text is empty, or its last line is ended by a newline. -/
def EndsLine (text : Text) : Prop :=
  text = [] ∨ text.getLast? = some 10

/-- A line is the rest of the text, or ends with a newline. -/
theorem line_cases {text : Text} {lineStart : ℕ} (hstart : lineStart < text.length) :
    text.length ≤ lineEndFrom text lineStart + 1 ∧
        substring text lineStart (lineEndFrom text lineStart + 1) = text.drop lineStart ∨
      EndsLine (text.take (lineEndFrom text lineStart + 1)) ∧
        10 ∈ substring text lineStart (lineEndFrom text lineStart + 1) := by
  have hle := le_lineEndFrom hstart
  rw [substring_of_le text (by omega)]
  rcases hend : indexOf text [10] lineStart with _ | lineEnd
  · left
    have hlast : lineEndFrom text lineStart = text.length - 1 := by simp [lineEndFrom, hend]
    refine ⟨by omega, ?_⟩
    rw [List.take_of_length_le (by omega)]
  · right
    have hfrom := (indexOf_eq_some hend).1
    have hnewline := getElem?_of_indexOf hend
    rw [lineEndFrom, hend, Option.getD_some]
    refine ⟨.inr (by rw [List.take_add_one, hnewline]; simp), ?_⟩
    refine List.mem_of_getElem? (i := lineEnd - lineStart) ?_
    rw [List.getElem?_drop, List.getElem?_take_of_lt (by omega)]
    rwa [Nat.add_sub_cancel' hfrom]

/-- The last line of the text is `hasOwnProperty`. -/
def HidesMethod (text : Text) : Prop :=
  ∃ before, EndsLine before ∧ text = before ++ hasOwnProperty

/-- What holds before each line of the loop that starts with the table `lineArray`. -/
structure Munging (maxLines : ℕ) (lineArray : List Text) (text : Text) (lineStart : ℕ)
    (lines : Lines) (chars : Text) : Prop where
  sound : lines.Sound
  grows : lineArray <+: lines.lineArray
  room : lines.lineArray.length ≤ maxLines ∨
    text.length ≤ lineStart ∧ lines.lineArray.length ≤ maxLines + 1
  encodes : Encodes lines.lineArray chars (text.take lineStart)
  border : lineStart < text.length → EndsLine (text.take lineStart)
  key : lines.lineHash hasOwnProperty = none ∨ text.length ≤ lineStart ∧ HidesMethod text

theorem Lines.key_add {lines : Lines} {line : Text} (hkey : lines.lineHash hasOwnProperty = none)
    (hline : line ≠ hasOwnProperty) : (lines.add line).lineHash hasOwnProperty = none := by
  rw [Lines.lineHash_add, setProperty]
  split_ifs
  · exact hkey
  · rw [Function.update_of_ne hline.symm, hkey]

theorem hasOwnProperty_no_newline : (10 : Symbol) ∉ hasOwnProperty := by
  decide

/-- A line that is not in the table is added to it. -/
theorem Munging.add {maxLines lineStart next : ℕ} {lines : Lines} {line : Text}
    (h : Munging maxLines lineArray text lineStart lines chars) (hmax : maxLines < 65536)
    (hstart : lineStart < text.length) (hroom : lines.lineArray.length ≤ maxLines)
    (hkey : lines.lineHash hasOwnProperty = none) (hne : line ≠ [])
    (hlast : lines.lineArray.length < maxLines ∨ text.length ≤ next)
    (hnext : text.take lineStart ++ line = text.take next)
    (hcases : text.length ≤ next ∧ line = text.drop lineStart ∨
      EndsLine (text.take next) ∧ 10 ∈ line) :
    Munging maxLines lineArray text next (lines.add line)
      (chars ++ [UInt16.ofNat lines.lineArray.length]) := by
  have hpre : lines.lineArray <+: (lines.add line).lineArray := List.prefix_append _ _
  have hlength : (lines.add line).lineArray.length = lines.lineArray.length + 1 := by
    rw [Lines.lineArray_add, List.length_append, List.length_singleton]
  refine ⟨h.sound.add hne (by omega), h.grows.trans hpre, ?_, ?_, fun hlt => ?_, ?_⟩
  · rcases hlast with hlast | hlast
    · left
      omega
    · right
      omega
  · rw [← hnext]
    exact (h.encodes.mono hpre).snoc (by omega) hne (by simp)
  · exact (hcases.resolve_left fun hrest => absurd hrest.1 (by omega)).1
  · by_cases hline : line = hasOwnProperty
    · right
      obtain ⟨hend, hrest⟩ :=
        hcases.resolve_right fun hends => hasOwnProperty_no_newline (hline ▸ hends.2)
      refine ⟨hend, text.take lineStart, h.border hstart, ?_⟩
      rw [← hline, hrest, List.take_append_drop]
    · exact .inl (Lines.key_add hkey hline)

/-- The loop goes through the text, and leaves its encoding. -/
theorem diffLinesToCharsMunge_spec {maxLines lineStart : ℕ} {lines : Lines}
    (hmax : maxLines < 65536) (h : Munging maxLines lineArray text lineStart lines chars) :
    ∃ chars' lines', diffLinesToCharsMunge maxLines text lineStart lines chars =
        .ok (chars', lines') ∧
      Munging maxLines lineArray text text.length lines' chars' := by
  fun_induction diffLinesToCharsMunge maxLines text lineStart lines chars with
  | case1 lineStart lines chars hstart hend hthrows =>
    obtain hkey | hkey := h.key
    · simp [hkey] at hthrows
    · omega
  | case2 lineStart lines chars hstart hend lineEnd hkey index hfound ih =>
    obtain ⟨hne, hindex, hline⟩ := h.sound _ _ hfound
    refine ih ⟨h.sound, h.grows, ?_, ?_, fun hlt => ?_, ?_⟩
    · exact h.room.imp_right fun hend => absurd hend.1 (by omega)
    · rw [← take_append_substring text (Nat.le_succ_of_le hend)]
      exact h.encodes.snoc hindex hne hline
    · exact ((line_cases hstart).resolve_left fun hrest => absurd hrest.1 (by omega)).1
    · exact h.key.imp_right fun hend => absurd hend.1 (by omega)
  | case3 lineStart lines chars hstart hend lineEnd hkey hfound char hbail ih =>
    refine ih (h.add hmax hstart hbail.le (by simpa using hkey) ?_ (.inr (by omega)) ?_
      (.inl ⟨by omega, rfl⟩))
    · rw [substringFrom_eq, ne_eq, List.drop_eq_nil_iff]
      omega
    · rw [substringFrom_eq, List.take_append_drop, List.take_of_length_le (by omega)]
  | case4 lineStart lines chars hstart hend lineEnd hkey hfound char hbail ih =>
    have hroom := h.room.resolve_right fun hend => absurd hend.1 (by omega)
    refine ih (h.add hmax hstart hroom (by simpa using hkey) ?_ (.inl (by omega))
      (take_append_substring text (Nat.le_succ_of_le hend)) (line_cases hstart))
    rw [substring_of_le text (Nat.le_succ_of_le hend), ne_eq, List.drop_eq_nil_iff,
      List.length_take]
    omega
  | case5 lineStart lines chars hstart =>
    have hend : text.length ≤ lineStart := by omega
    refine ⟨chars, lines, rfl, h.sound, h.grows, ?_, ?_, fun hlt => ?_, ?_⟩
    · exact h.room.imp_right fun hroom => ⟨le_rfl, hroom.2⟩
    · rw [List.take_length, ← List.take_of_length_le hend]
      exact h.encodes
    · exact absurd hlt (lt_irrefl _)
    · exact h.key.imp_right fun hkey => ⟨le_rfl, hkey.2⟩

/-- At the start of a text nothing has been read of it. -/
theorem munging_start {maxLines : ℕ} (lines : Lines) (text : Text) (hsound : lines.Sound)
    (hroom : lines.lineArray.length ≤ maxLines)
    (hkey : lines.lineHash hasOwnProperty = none) :
    Munging maxLines lines.lineArray text 0 lines [] :=
  ⟨hsound, List.prefix_refl _, .inl hroom, encodes_nil _, fun _ => .inl rfl, .inl hkey⟩

/-- With an own property `hasOwnProperty` the first lookup throws. -/
theorem diffLinesToCharsMunge_typeError {maxLines : ℕ} {lines : Lines} (hne : text ≠ [])
    (hkey : (lines.lineHash hasOwnProperty).isSome) :
    diffLinesToCharsMunge maxLines text 0 lines [] = .error .typeError := by
  rw [diffLinesToCharsMunge, dif_pos (List.length_pos_iff.2 hne)]
  simp only [hkey, if_true]

/-- Both texts are encoded with one table, unless the last line of the first hides the method
and there is a second. -/
theorem diffLinesToChars_spec (text1 text2 : Text) :
    diffLinesToChars text1 text2 = .error .typeError ∧ text2 ≠ [] ∧ HidesMethod text1 ∨
      ∃ encoded, diffLinesToChars text1 text2 = .ok encoded ∧
        Encodes encoded.lineArray encoded.chars1 text1 ∧
        Encodes encoded.lineArray encoded.chars2 text2 := by
  obtain ⟨chars1, lines1, hrun1, h1⟩ := diffLinesToCharsMunge_spec (by decide)
    (munging_start ⟨[[]], fun _ => none⟩ text1 (fun _ _ hfound => by cases hfound)
      (show 1 ≤ 40000 by decide) rfl)
  have hencodes1 := h1.encodes
  rw [List.take_length] at hencodes1
  have hsize : lines1.lineArray.length ≤ 65535 := by
    have := h1.room
    omega
  have hrun : diffLinesToChars text1 text2 = (do
      let (chars2, lines) ← diffLinesToCharsMunge 65535 text2 0 lines1 []
      return ⟨chars1, chars2, lines.lineArray⟩) := by
    rw [diffLinesToChars, hrun1]
    rfl
  rw [hrun]
  rcases hkey : lines1.lineHash hasOwnProperty with _ | index
  · right
    obtain ⟨chars2, lines2, hrun2, h2⟩ := diffLinesToCharsMunge_spec (by decide)
      (munging_start lines1 text2 h1.sound hsize hkey)
    have hencodes2 := h2.encodes
    rw [List.take_length] at hencodes2
    exact ⟨⟨chars1, chars2, lines2.lineArray⟩, by rw [hrun2]; rfl,
      hencodes1.mono h2.grows, hencodes2⟩
  · have hsome : (lines1.lineHash hasOwnProperty).isSome := by rw [hkey]; rfl
    rcases eq_or_ne text2 [] with rfl | hne
    · right
      refine ⟨⟨chars1, [], lines1.lineArray⟩, ?_, hencodes1, encodes_nil _⟩
      rw [diffLinesToCharsMunge, dif_neg (by simp)]
      rfl
    · left
      refine ⟨?_, hne, (h1.key.resolve_left (by simp [hkey])).2⟩
      rw [diffLinesToCharsMunge_typeError hne hsome]
      rfl

/-! ## A last line that hides the method -/

/-- A line that starts inside `before` also ends there, with a newline. -/
theorem lineEndFrom_lt {before : Text} (rest : Text) {lineStart : ℕ}
    (hlast : before.getLast? = some 10) (hstart : lineStart < before.length) :
    lineEndFrom (before ++ rest) lineStart < before.length ∧
      before[lineEndFrom (before ++ rest) lineStart]? = some 10 := by
  have hnewline : [10] <+: (before ++ rest).drop (before.length - 1) := by
    obtain ⟨lines, rfl⟩ := List.getLast?_eq_some_iff.1 hlast
    simp
  obtain ⟨lineEnd, hle, hend⟩ := indexOf_le (show lineStart ≤ before.length - 1 by omega)
    (by rw [List.length_append]; omega) hnewline
  have hlt : lineEnd < before.length := by omega
  rw [lineEndFrom, hend, Option.getD_some]
  refine ⟨hlt, ?_⟩
  exact (List.getElem?_append_left hlt).symm.trans (getElem?_of_indexOf hend)

/-- Up to the end of the line there is one newline more. -/
theorem count_newlines {before : Text} {lineStart lineEnd : ℕ} (hle : lineStart ≤ lineEnd)
    (hnewline : before[lineEnd]? = some 10) :
    (before.take lineStart).count 10 < (before.take (lineEnd + 1)).count 10 := by
  have hpre : before.take lineStart <+: before.take lineEnd :=
    List.take_prefix_take_left (by omega)
  have hcount := hpre.sublist.count_le 10
  rw [List.take_add_one, hnewline, Option.toList_some, List.count_append,
    List.count_singleton_self]
  omega

/-- After `before` there is one line more, the last. -/
theorem lastLine (before : Text) :
    (before ++ hasOwnProperty).length ≤
        lineEndFrom (before ++ hasOwnProperty) before.length + 1 ∧
      substring (before ++ hasOwnProperty) before.length
        (lineEndFrom (before ++ hasOwnProperty) before.length + 1) = hasOwnProperty := by
  have hstart : before.length < (before ++ hasOwnProperty).length := by
    rw [List.length_append]
    exact Nat.lt_add_of_pos_right (by decide)
  rcases line_cases hstart with h | ⟨-, h⟩
  · rwa [List.drop_left] at h
  · rw [substring_of_le _ (Nat.le_succ_of_le (le_lineEndFrom hstart)), List.drop_take,
      List.drop_left] at h
    exact absurd (List.mem_of_mem_take h) hasOwnProperty_no_newline

/-- Of a text that ends with the line `hasOwnProperty` the loop leaves such a property. The table
has at most one line for each newline. -/
theorem isSome_of_hasOwnProperty {before : Text} {maxLines lineStart : ℕ} {lines : Lines}
    (hbefore : EndsLine before) (hmax : before.count 10 + 1 < maxLines)
    (htext : text = before ++ hasOwnProperty) (hstart : lineStart ≤ before.length)
    (hlines : lines.lineArray.length ≤ (before.take lineStart).count 10 + 1)
    (hkey : lines.lineHash hasOwnProperty = none) :
    ∃ chars' lines', diffLinesToCharsMunge maxLines text lineStart lines chars =
        .ok (chars', lines') ∧
      (lines'.lineHash hasOwnProperty).isSome := by
  have hlength : text.length = before.length + hasOwnProperty.length := by
    rw [htext, List.length_append]
  have hpositive : 0 < hasOwnProperty.length := by decide
  fun_induction diffLinesToCharsMunge maxLines text lineStart lines chars with
  | case1 lineStart lines chars hlt hend hthrows => simp [hkey] at hthrows
  | case2 lineStart lines chars hlt hend lineEnd hno index hfound ih =>
    rcases hstart.lt_or_eq with hstart | rfl
    · have hlast := hbefore.resolve_left (List.length_pos_iff.1 (by omega))
      obtain ⟨hinside, hnewline⟩ := lineEndFrom_lt hasOwnProperty hlast hstart
      rw [← htext] at hinside hnewline
      have hcount : _ < (before.take (lineEnd + 1)).count 10 := count_newlines hend hnewline
      exact ih hinside (by omega) hkey
    · simp only [lineEnd, htext] at hfound
      rw [(lastLine before).2, hkey] at hfound
      cases hfound
  | case3 lineStart lines chars hlt hend lineEnd hno hfound char hbail ih =>
    have := (List.take_sublist lineStart before).count_le 10
    omega
  | case4 lineStart lines chars hlt hend lineEnd hno hfound char hbail ih =>
    rcases hstart.lt_or_eq with hstart | rfl
    · have hlast := hbefore.resolve_left (List.length_pos_iff.1 (by omega))
      obtain ⟨hinside, hnewline⟩ := lineEndFrom_lt hasOwnProperty hlast hstart
      rw [← htext] at hinside hnewline
      have hcount : _ < (before.take (lineEnd + 1)).count 10 := count_newlines hend hnewline
      have hline : 10 ∈ substring text lineStart (lineEnd + 1) :=
        ((line_cases hlt).resolve_left fun hrest => absurd hrest.1 (by omega)).2
      refine ih hinside ?_ (Lines.key_add hkey fun hkey => ?_)
      · rw [Lines.lineArray_add, List.length_append, List.length_singleton]
        omega
      · exact hasOwnProperty_no_newline (hkey ▸ hline)
    · obtain ⟨hrest, hline⟩ := lastLine before
      rw [← htext] at hrest hline
      rw [diffLinesToCharsMunge, dif_neg (by omega)]
      refine ⟨_, _, rfl, ?_⟩
      have hproto : hasOwnProperty ≠ utf16 "__proto__" := by decide
      simp only [lineEnd, hline, Lines.lineHash_add, setProperty, if_neg hproto,
        Function.update_self, Option.isSome_some]
  | case5 lineStart lines chars hlt => omega

/-- Unless the first text has so many lines that the loop bails out, the encoding fails exactly
if the last line of the first text hides the method and there is a second text. -/
theorem diffLinesToChars_eq_error_iff {text1 : Text} (hmax : text1.count 10 + 1 < 40000)
    (text2 : Text) : diffLinesToChars text1 text2 = .error .typeError ↔
      text2 ≠ [] ∧ HidesMethod text1 := by
  refine ⟨fun herror => ?_, ?_⟩
  · rcases diffLinesToChars_spec text1 text2 with ⟨-, h⟩ | ⟨encoded, hok, -⟩
    · exact h
    · rw [hok] at herror
      cases herror
  · rintro ⟨hne, before, hbefore, rfl⟩
    rw [List.count_append] at hmax
    obtain ⟨chars1, lines, hrun, hkey⟩ : ∃ chars' lines',
        diffLinesToCharsMunge 40000 (before ++ hasOwnProperty) 0 ⟨[[]], fun _ => none⟩ [] =
          .ok (chars', lines') ∧ (lines'.lineHash hasOwnProperty).isSome :=
      isSome_of_hasOwnProperty hbefore (by omega) rfl (Nat.zero_le _) (by simp) rfl
    rw [diffLinesToChars, hrun]
    change (diffLinesToCharsMunge 65535 text2 0 lines [] >>= _) = _
    rw [diffLinesToCharsMunge_typeError hne hkey]
    rfl

theorem diffLinesToChars_eq_error_iff_hasOwnProperty :
    diffLinesToChars (utf16 "kek\nhasOwnProperty") (utf16 "kek") = .error .typeError :=
  (diffLinesToChars_eq_error_iff (by decide) _).2
    ⟨by decide, utf16 "kek\n", .inr (by decide), by decide⟩

/-! ## Back to the lines -/

theorem diffText1_diffCharsToLines (lineArray : List Text) (diffs : List Diff) :
    diffText1 (diffCharsToLines diffs lineArray) = joinLines lineArray (diffText1 diffs) := by
  rw [diffText1, diffText1, diffCharsToLines, joinLines, List.flatMap_assoc, List.flatMap_map]
  refine List.flatMap_congr fun diff _ => ?_
  obtain ⟨_ | _ | _, content⟩ := diff <;> rfl

theorem diffText2_diffCharsToLines (lineArray : List Text) (diffs : List Diff) :
    diffText2 (diffCharsToLines diffs lineArray) = joinLines lineArray (diffText2 diffs) := by
  rw [diffText2, diffText2, diffCharsToLines, joinLines, List.flatMap_assoc, List.flatMap_map]
  refine List.flatMap_congr fun diff _ => ?_
  obtain ⟨_ | _ | _, content⟩ := diff <;> rfl

variable {chars1 chars2 text1 text2 : Text} {diffs : List Diff}

/-- Entries that spell the characters become entries that spell the texts. -/
theorem spells_diffCharsToLines (h1 : Encodes lineArray chars1 text1)
    (h2 : Encodes lineArray chars2 text2) (h : Spells diffs chars1 chars2) :
    Spells (diffCharsToLines diffs lineArray) text1 text2 := by
  refine ⟨?_, ?_⟩
  · rw [diffText1_diffCharsToLines, h.1, h1.joined]
  · rw [diffText2_diffCharsToLines, h.2, h2.joined]

/-- No entry loses its content, as no character stands for an empty line. -/
theorem nonempty_diffCharsToLines (h1 : Encodes lineArray chars1 text1)
    (h2 : Encodes lineArray chars2 text2) (h : Spells diffs chars1 chars2)
    (hnonempty : Nonempty diffs) : Nonempty (diffCharsToLines diffs lineArray) := by
  intro line hline
  obtain ⟨diff, hdiff, rfl⟩ := List.mem_map.1 hline
  have hknown : ∀ char ∈ diff.content, ∃ line, line ≠ [] ∧
      lineArray[char.toNat]? = some line := by
    intro char hchar
    have hmem : char ∈ diffText1 diffs ∨ char ∈ diffText2 diffs := by
      obtain ⟨_ | _ | _, content⟩ := diff
      · exact .inl (List.mem_flatMap.2 ⟨_, hdiff, hchar⟩)
      · exact .inl (List.mem_flatMap.2 ⟨_, hdiff, hchar⟩)
      · exact .inr (List.mem_flatMap.2 ⟨_, hdiff, hchar⟩)
    rw [h.1, h.2] at hmem
    exact hmem.elim (h1.known char) (h2.known char)
  have hpos := List.length_pos_iff.2 (hnonempty diff hdiff)
  exact List.length_pos_iff.1 (hpos.trans_le (length_le_joinLines hknown))

end OtEditor.DiffMatchPatch
