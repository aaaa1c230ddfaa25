import EntityQuery.Proofs.Language.Scan
import EntityQuery.Proofs.Settings.Distinct

/-! # Reading a section

A document of one section, with keys that need no quotes and a word for each of them, is read as the table of its
keys (`read_section`). Every line is scanned by itself, whatever follows its end (`IsLine`), and the lines of a
section become the members of its table as long as no key comes twice. -/

namespace EntityQuery.Settings.Document
open EntityQuery.Language

/-! ### Keys and words -/

/-- A key that needs no quotes. -/
structure IsBare (key : String) : Prop where
  ne_nil : key.toList ≠ []
  chars : ∀ c ∈ key.toList, isBareKeyChar c = true

/-- A word without quotes, and what it stands for. -/
structure IsWord (word : List Char) (node : Node) : Prop where
  ne_nil : word ≠ []
  chars : ∀ c ∈ word, isScalarChar c = true
  value : scalar? word = some node

theorem skip_cons_of_isScalarChar {c : Char} {cs : List Char} (h : isScalarChar c = true) :
    Text.skip spaces (c :: cs) = c :: cs := by
  refine Text.skip_cons_of_notMem fun hspace => ?_
  simp only [spaces, List.mem_cons, List.not_mem_nil, or_false] at hspace
  rcases hspace with rfl | rfl <;> cases h

theorem isScalarChar_of_isBareKeyChar {c : Char} (h : isBareKeyChar c = true) : isScalarChar c = true := by
  simp only [isBareKeyChar, Bool.or_eq_true] at h
  rcases h with (h | h) | h <;> simp [isScalarChar, h]

section Scanning
variable {key : String} {word rest : List Char} {node : Node} {fuel level : Nat}

theorem IsBare.head (h : IsBare key) : ∃ c cs, key.toList = c :: cs ∧ isBareKeyChar c = true := by
  obtain ⟨c, cs, hkey⟩ := List.exists_cons_of_ne_nil h.ne_nil
  exact ⟨c, cs, hkey, h.chars c (hkey ▸ List.mem_cons_self)⟩

theorem IsWord.head (h : IsWord word node) : ∃ c cs, word = c :: cs ∧ isScalarChar c = true := by
  obtain ⟨c, cs, hword⟩ := List.exists_cons_of_ne_nil h.ne_nil
  exact ⟨c, cs, hword, h.chars c (hword ▸ List.mem_cons_self)⟩

theorem scanSimpleKey_bare (h : IsBare key) (hrest : ∀ c ∈ rest.head?, isBareKeyChar c = false) :
    scanSimpleKey (key.toList ++ rest) = some (key, rest) := by
  obtain ⟨c, cs, hkey, hc⟩ := h.head
  have htake := takeWhile_exact h.chars hrest
  have hdrop := dropWhile_exact h.chars hrest
  rw [hkey, List.cons_append] at htake hdrop ⊢
  unfold scanSimpleKey
  split
  case h_3 =>
    rw [scanBareKey, htake, hdrop, ← hkey, String.ofList_toList, if_neg (by simpa using h.ne_nil)]
  all_goals
    rename_i heq
    obtain ⟨rfl, -⟩ := List.cons.inj heq
    cases hc

theorem scanKey_bare {e : Char} (h : IsBare key) (he : isBareKeyChar e = false)
    (hpoint : (Text.skip spaces (e :: rest)).head? ≠ some '.') :
    scanKey (fuel + 1) (key.toList ++ e :: rest) = some ([key], Text.skip spaces (e :: rest)) := by
  have hend : ∀ c ∈ (e :: rest).head?, isBareKeyChar c = false := fun c hc => Option.some.inj hc ▸ he
  have hspace : Text.skip spaces (key.toList ++ e :: rest) = key.toList ++ e :: rest := by
    obtain ⟨c, cs, hkey, hc⟩ := h.head
    rw [hkey, List.cons_append, skip_cons_of_isScalarChar (isScalarChar_of_isBareKeyChar hc)]
  rw [scanKey, scanParts, hspace, scanSimpleKey_bare h hend, Option.bind_some]
  dsimp only
  split
  · rename_i heq
    rw [heq] at hpoint
    exact absurd rfl hpoint
  · rfl

theorem scanValue_word (h : IsWord word node) (hrest : ∀ c ∈ rest.head?, isScalarChar c = false ∧ c ≠ ' ') :
    scanValue (fuel + 1) level (word ++ rest) = some (node, rest) := by
  have hend : ∀ c ∈ rest.head?, isScalarChar c = false := fun c hc => (hrest c hc).1
  have htake : takeScalar (word ++ rest) = (word, rest) := by
    rw [takeScalar, takeWhile_exact h.chars hend, dropWhile_exact h.chars hend]
    split
    · exact absurd rfl (hrest ' ' rfl).2
    · rfl
  obtain ⟨c, cs, hword, hc⟩ := h.head
  rw [hword, List.cons_append] at htake ⊢
  unfold scanValue
  split
  case h_7 =>
    rw [htake, ← hword]
    dsimp only
    rw [h.value, Option.map_some]
  all_goals
    rename_i heq
    obtain ⟨rfl, -⟩ := List.cons.inj heq
    cases hc

/-! ### Lines -/

/-- A text is a line of its own: wherever it stands before a line end, it is scanned as this line. -/
structure IsLine (text : List Char) (line : Line) : Prop where
  ne_nil : text ≠ []
  scan : ∀ fuel rest, scanLine (fuel + 2) (text ++ '\n' :: rest) = some (line, '\n' :: rest)

/-- A key and its word. -/
def assignmentText (key : String) (word : List Char) : List Char :=
  key.toList ++ (' ' :: '=' :: ' ' :: word)

/-- The header of a section. -/
def headerText (name : String) : List Char :=
  '[' :: (name.toList ++ [']'])

theorem scanAssignment_text (hkey : IsBare key) (hword : IsWord word node) :
    scanAssignment (fuel + 2) level (assignmentText key word ++ '\n' :: rest) = some (([key], node), '\n' :: rest) := by
  have hblank : Text.skip spaces (' ' :: (word ++ '\n' :: rest)) = word ++ '\n' :: rest := by
    obtain ⟨c, cs, rfl, hc⟩ := hword.head
    rw [Text.skip, List.dropWhile_cons_of_pos rfl, List.cons_append, ← Text.skip, skip_cons_of_isScalarChar hc]
  have hend : ∀ c ∈ ('\n' :: rest).head?, isScalarChar c = false ∧ c ≠ ' ' := by
    intro c hc
    obtain rfl := Option.some.inj hc
    decide
  have hpoint : (Text.skip spaces (' ' :: '=' :: ' ' :: (word ++ '\n' :: rest))).head? ≠ some '.' := by
    show some '=' ≠ some '.'
    decide
  rw [scanAssignment, assignmentText, List.append_assoc, List.cons_append, List.cons_append, List.cons_append,
    scanKey_bare hkey rfl hpoint, Option.bind_some]
  show (scanValue (fuel + 1) level (Text.skip spaces (' ' :: (word ++ '\n' :: rest)))).map _ = _
  rw [hblank, scanValue_word hword hend, Option.map_some]

theorem isLine_assignment (hkey : IsBare key) (hword : IsWord word node) :
    IsLine (assignmentText key word) (.assignment ([key], node)) := by
  refine ⟨by simp [assignmentText], fun fuel rest => ?_⟩
  have hscan := @scanAssignment_text _ _ rest _ fuel nestingLimit hkey hword
  obtain ⟨c, cs, hkey, hc⟩ := hkey.head
  rw [assignmentText, hkey, List.cons_append, List.cons_append] at hscan ⊢
  unfold scanLine
  rw [skip_cons_of_isScalarChar (isScalarChar_of_isBareKeyChar hc)]
  split
  case h_1 heq => cases heq
  case h_4 heq =>
    obtain ⟨rfl, rfl⟩ := List.cons.inj heq
    rw [if_neg (by rintro (rfl | rfl | rfl) <;> cases hc), hscan, Option.map_some]
  all_goals
    rename_i heq
    obtain ⟨rfl, -⟩ := List.cons.inj heq
    cases hc

theorem isLine_header (h : IsBare key) : IsLine (headerText key) (.tableHeader [key]) := by
  refine ⟨List.cons_ne_nil _ _, fun fuel rest => ?_⟩
  have hscan : scanKey (fuel + 2) (key.toList ++ ']' :: '\n' :: rest) = some ([key], ']' :: '\n' :: rest) :=
    scanKey_bare h rfl (by show some ']' ≠ some '.'; decide)
  obtain ⟨c, cs, hkey, hc⟩ := h.head
  have hhead : Text.skip spaces (headerText key ++ '\n' :: rest) = '[' :: (key.toList ++ ']' :: '\n' :: rest) := by
    rw [headerText, List.cons_append, List.append_assoc]
    rfl
  unfold scanLine
  rw [hhead]
  split
  case h_3 heq =>
    obtain ⟨-, rfl⟩ := List.cons.inj heq
    rw [hscan]
    rfl
  case h_2 heq =>
    rw [hkey] at heq
    obtain ⟨rfl, -⟩ := List.cons.inj (List.cons.inj heq).2
    cases hc
  case h_1 heq => cases heq
  case h_4 hne heq =>
    obtain ⟨rfl, rfl⟩ := List.cons.inj heq
    exact absurd rfl hne

/-- Lines one below the other. -/
def textOf (lines : List (List Char × Line)) : List Char :=
  lines.flatMap fun l => l.1 ++ ['\n']

theorem textOf_cons (l : List Char × Line) (lines : List (List Char × Line)) :
    textOf (l :: lines) = l.1 ++ '\n' :: textOf lines := by
  rw [textOf, List.flatMap_cons, List.append_assoc, List.singleton_append, textOf]

theorem length_le_textOf (lines : List (List Char × Line)) : lines.length ≤ (textOf lines).length := by
  induction lines with
  | nil => exact Nat.le_refl _
  | cons l lines ih =>
    rw [textOf_cons, List.length_append, List.length_cons, List.length_cons]
    omega

theorem scanLinesOf_textOf {lines : List (List Char × Line)} (h : ∀ l ∈ lines, IsLine l.1 l.2)
    (hfuel : lines.length < fuel) :
    scanLinesOf fuel (textOf lines) = some (lines.map Prod.snd) := by
  induction lines generalizing fuel with
  | nil =>
    obtain ⟨fuel, rfl⟩ := Nat.exists_eq_add_of_lt hfuel
    rfl
  | cons l lines ih =>
    obtain ⟨fuel, rfl⟩ : ∃ n, fuel = n + 1 := ⟨fuel - 1, by omega⟩
    have hl := h l List.mem_cons_self
    have hlines := ih (fun l hl => h l (List.mem_cons_of_mem _ hl)) (Nat.lt_of_succ_lt_succ hfuel)
    rw [textOf_cons, scanLinesOf, if_neg (by simp), hl.scan, Option.bind_some]
    -- What is left is the line end, which `endLine?` takes.
    show (some _).bind _ = _
    rw [Option.bind_some, hlines]
    rfl

end Scanning

/-! ### Numbers -/

/-- No whole number but zero is written with a zero in front. -/
theorem head_writeNat {n : Nat} (h : (Decimal.writeNat n).head? = some '0') : n = 0 := by
  -- A number of more than one digit begins as the number without its last digit does.
  induction n using Nat.strongRecOn with
  | ind n ih =>
    by_cases hn : n < 10
    · have hdigits : Decimal.writeNat n = ['0'] := by
        rw [Decimal.writeNat, Nat.toDigits_of_lt_base hn] at h ⊢
        rw [Option.some.inj h]
      rw [← Decimal.digitsValue_writeNat n, hdigits]
      rfl
    · have hsplit : Decimal.writeNat n = Decimal.writeNat (n / 10) ++ [Nat.digitChar (n % 10)] :=
        Nat.toDigits_of_base_le (by decide) (by omega)
      have hne : Decimal.writeNat (n / 10) ≠ [] := Nat.toDigits_ne_nil
      obtain ⟨c, cs, hcs⟩ := List.exists_cons_of_ne_nil hne
      rw [hsplit, hcs] at h
      have := ih (n / 10) (by omega) (by rw [hcs]; exact h)
      omega

theorem withoutUnderscores_digits {ds : List Char} (hne : ds ≠ []) (h : ∀ c ∈ ds, c.isDigit = true) :
    withoutUnderscores Char.isDigit ds = some ds := by
  fun_induction withoutUnderscores Char.isDigit ds with
  | case1 => exact absurd rfl hne
  | case2 c hc => rfl
  | case3 c hc => exact absurd (h c List.mem_cons_self) hc
  | case4 c rest hc ih => exact absurd (h '_' (by simp)) (by decide)
  | case5 c rest hc => exact absurd (h '_' (by simp)) (by decide)
  | case6 c rest hsingle _ hc ih =>
    have hrest : rest ≠ [] := fun hnil => hsingle (hnil ▸ rfl)
    rw [ih hrest fun d hd => h d (List.mem_cons_of_mem _ hd), Option.map_some]
  | case7 c rest _ _ hc => exact absurd (h c List.mem_cons_self) hc

theorem integer?_writeNat {n : Nat} (h : n ≤ Int64.maxValue.toInt) :
    integer? (Decimal.writeNat n) = some (.integer n) := by
  obtain ⟨hne, hdigits⟩ := isDigits_iff.mp (Decimal.isDigits_writeNat n)
  have hsign : takeSign (Decimal.writeNat n) = (false, Decimal.writeNat n) := by
    unfold takeSign
    split
    · rename_i heq
      exact absurd (hdigits '+' (heq ▸ List.mem_cons_self)) (by decide)
    · rename_i heq
      exact absurd (hdigits '-' (heq ▸ List.mem_cons_self)) (by decide)
    · rfl
  have hplain : plainDigits? (Decimal.writeNat n) = some (Decimal.writeNat n) := by
    rw [plainDigits?, withoutUnderscores_digits hne hdigits, Option.bind_some, if_neg]
    rintro ⟨hzero, hlength⟩
    obtain rfl := head_writeNat hzero
    exact absurd hlength (by decide)
  have hmin : Int64.minValue.toInt ≤ n := Int.le_trans (by decide : Int64.minValue.toInt ≤ 0) (Int.natCast_nonneg n)
  rw [integer?, hsign]
  show (plainDigits? _).bind _ = _
  rw [hplain, Option.bind_some, Decimal.digitsValue_writeNat]
  show inRange? n = _
  rw [inRange?, if_pos ⟨hmin, h⟩]

theorem isWord_integer {n : Nat} (h : n ≤ Int64.maxValue.toInt) : IsWord (Decimal.writeNat n) (.integer n) := by
  obtain ⟨hne, hdigits⟩ := isDigits_iff.mp (Decimal.isDigits_writeNat n)
  refine ⟨hne, fun c hc => by simp [isScalarChar, Char.isAlphanum, hdigits c hc], ?_⟩
  -- Both truth values have an `e` in them, which is no digit.
  have hword : ∀ word : List Char, 'e' ∈ word → Decimal.writeNat n ≠ word := by
    rintro word he rfl
    exact absurd (hdigits 'e' he) (by decide)
  rw [scalar?, if_neg (hword _ (by decide)), if_neg (hword _ (by decide)), integer?_writeNat h, Option.some_or]

/-! ### Sections -/

/-- What a section holds: keys, the word of each key, and what it stands for. -/
abbrev Entry := String × List Char × Node

/-- A section: its header, and a line for each entry. -/
def sectionLines (name : String) (entries : List Entry) : List (List Char × Line) :=
  (headerText name, .tableHeader [name]) ::
    entries.map fun (key, word, node) => (assignmentText key word, .assignment ([key], node))

section Sections
variable {name : String} {entries : List Entry}

theorem sections_assignments (assignments : List Assignment) :
    sections (assignments.map .assignment) = (assignments, []) := by
  induction assignments with
  | nil => rfl
  | cons a assignments ih => rw [List.map_cons, sections, ih]

theorem assignAll_cons (path : List String) (value : Node) (assignments : List Assignment) (items : Items) :
    assignAll ((path, value) :: assignments) items = (assign value true path items).bind (assignAll assignments) := rfl

/-- Keys that are all different are assigned one behind the other. -/
theorem assignAll_entries {items : Items} (h : (items.map Prod.fst ++ entries.map Prod.fst).Nodup) :
    assignAll (entries.map fun e => ([e.1], e.2.2)) items =
      some (items ++ entries.map fun e => (e.1, .value e.2.2)) := by
  induction entries generalizing items with
  | nil => simp [assignAll]
  | cons e entries ih =>
    obtain ⟨key, word, node⟩ := e
    have hkey : key ∉ items.map Prod.fst := fun hmem =>
      (List.nodup_append.mp h).2.2 key hmem key List.mem_cons_self rfl
    have hassign : assign node true [key] items = some (items ++ [(key, .value node)]) := by
      rw [assign, lookup_eq_none hkey, put_of_notMem hkey]
      rfl
    have hrest := @ih (items ++ [(key, .value node)]) (by simpa using h)
    rw [List.map_cons, assignAll_cons, hassign, Option.bind_some, hrest, List.append_assoc, List.singleton_append,
      List.map_cons]

/-- The lines of a section are the members of one table, if no key comes twice. -/
theorem assemble_section (hkeys : (entries.map Prod.fst).Nodup) : assemble ((sectionLines name entries).map Prod.snd) =
    some [(name, .table false false (entries.map fun e => (e.1, .value e.2.2)))] := by
  have hlines : (sectionLines name entries).map Prod.snd =
      .tableHeader [name] :: (entries.map fun e => ([e.1], e.2.2)).map .assignment := by
    rw [sectionLines, List.map_cons, List.map_map, List.map_map]
    rfl
  have hsections : sections ((sectionLines name entries).map Prod.snd) =
      ([], [(.tableHeader [name], entries.map fun e => ([e.1], e.2.2))]) := by
    rw [hlines, sections, sections_assignments]
  have hfill : fillTable (entries.map fun e => ([e.1], e.2.2)) none =
      some (.table false false (entries.map fun e => (e.1, .value e.2.2))) := by
    rw [fillTable, @assignAll_entries entries [] (by simpa using hkeys)]
    rfl
  rw [assemble, hsections]
  show ((fillTable _ none).map _).bind some = _
  rw [hfill]
  rfl

/-- A document of one section is read as its table. -/
theorem read_section (hname : IsBare name) (hkeys : (entries.map Prod.fst).Nodup)
    (hentries : ∀ e ∈ entries, IsBare e.1 ∧ IsWord e.2.1 e.2.2) :
    read (String.ofList (textOf (sectionLines name entries))) =
      some [(name, .table (entries.map fun e => (e.1, e.2.2)))] := by
  have hlines : ∀ l ∈ sectionLines name entries, IsLine l.1 l.2 := by
    refine List.forall_mem_cons.mpr ⟨isLine_header hname, fun l hl => ?_⟩
    obtain ⟨e, he, rfl⟩ := List.mem_map.mp hl
    exact isLine_assignment (hentries e he).1 (hentries e he).2
  have hscan := scanLinesOf_textOf hlines (Nat.lt_succ_of_le (length_le_textOf _))
  have hmark : skipByteOrderMark (textOf (sectionLines name entries)) = textOf (sectionLines name entries) := rfl
  have hmembers : itemsToMembers (entries.map fun e => (e.1, .value e.2.2)) = entries.map fun e => (e.1, e.2.2) := by
    rw [itemsToMembers_eq, List.map_map]
    exact List.map_congr_left fun e _ => by rw [Function.comp, Item.toNode]
  rw [read, String.toList_ofList, hmark, hscan, Option.bind_some, assemble_section hkeys, Option.map_some,
    itemsToMembers, Item.toNode, hmembers, itemsToMembers]

end Sections

end EntityQuery.Settings.Document
