import EntityQuery.Proofs.Language.Numeral
import EntityQuery.Proofs.Language.WellFormed

/-! # Printed queries compile back

A well-formed query, written as a statement, compiles to itself. The written text is cut into the words of
a statement made from the query (`phraseOf`): every piece of it ends before a space, a comma or the end
of the text, where any word may end (`Prints`). What the statement means is the query, since every value is
written as a literal that stands for it. -/

namespace EntityQuery.Language
open Grammar (Keyword isWordChar startsWord)
open Decimal

/-! ### Written values -/

theorem isQuotedBody_escape (quote : Char) (cs : List Char) : IsQuotedBody quote (Text.escape quote cs) := by
  induction cs with
  | nil => exact .nil
  | cons c cs ih =>
    rw [Text.escape]
    split
    · exact .escaped ih
    · rename_i h
      rw [not_or] at h
      exact .plain h.2 h.1 ih

theorem unescaped_escape (quote : Char) (cs : List Char) : Unescaped quote (Text.escape quote cs) cs := by
  have h := unescaped_unescape (isQuotedBody_escape quote cs)
  rwa [Text.unescape_escape] at h

/-- A single value is written as a literal that stands for it. -/
theorem denotes_write {v : Value} (h : v.IsScalar) : IsLiteral v.write ∧ Denotes v.write v := by
  cases v with
  | string text =>
    have hd := Denotes.quoted (rfl : Text.isQuote '\'' = true) (unescaped_escape '\'' text.toList)
    rw [String.ofList_toList] at hd
    exact ⟨.quoted rfl (isQuotedBody_escape '\'' text.toList), hd⟩
  | number n =>
    cases n with
    | integer n => exact ⟨.number (isNumber_of_whole (whole_writeInt n.toInt)), denotes_integer n⟩
    | float x => exact ⟨.number (denotes_float h).1, (denotes_float h).2⟩
  | boolean b =>
    cases b with
    | true => exact ⟨.word (by decide), .yes (by decide)⟩
    | false => exact ⟨.word (by decide), .no (by decide)⟩
  | null => exact ⟨.word (by decide), .null (by decide)⟩
  | pair low high => cases h

/-! ### The statement of a query -/

def testOf (c : Condition) : Test :=
  match c.operand with
  | .pair low high => .range c.field.toList low.write high.write
  | v => .compare c.field.toList c.operator v.write

def filterOf (c : Option Condition) : Option Filter :=
  c.map fun c => { negated := false, test := testOf c }

def fieldsOf : List String → Fields
  | [] => .star
  | first :: more => .named first.toList (more.map String.toList)

def itemOf (k : SortKey) : SortItem :=
  { field := k.field.toList, direction := some k.direction }

def orderOf : List SortKey → List Clause
  | [] => []
  | first :: more => [.order (itemOf first) (more.map itemOf)]

/-- A count of zero has no clause. -/
def countOf (clause : List Char → Clause) (n : UInt64) : List Clause :=
  if n = 0 then [] else [clause (writeNat n.toNat)]

def selectOf (q : SelectQuery) : Select :=
  { fields := fieldsOf q.fields
    entity := q.entity.toList
    filter := filterOf q.condition
    tail := orderOf q.sorts ++ countOf .skip q.skip ++ countOf .limit q.limit }

def deleteOf (q : DeleteQuery) : Delete :=
  { entity := q.entity.toList, filter := filterOf q.condition }

/-- The statement that a query is written as. -/
def phraseOf : Query → Statement
  | .select q => .select (selectOf q)
  | .delete q => .delete (deleteOf q)

/-! ### What it means -/

theorem testOf_scalar {field : String} {operator : Operator} {operand : Value} (h : operand.IsScalar) :
    testOf { field, operator, operand } = .compare field.toList operator operand.write := by
  cases operand with
  | pair low high => cases h
  | _ => rfl

theorem testOf_means {c : Condition} (h : c.WellFormed) : (testOf c).Means c := by
  obtain ⟨field, operator, operand⟩ := c
  rcases h.operand with hv | ⟨low, high, rfl, hlow, hhigh⟩
  · rw [testOf_scalar hv]
    exact ⟨String.ofList_toList.symm, rfl, (denotes_write hv).2⟩
  · exact ⟨String.ofList_toList.symm, h.fits.mpr rfl, low, high, (denotes_write hlow).2, (denotes_write hhigh).2, rfl⟩

theorem filterOf_means {c : Option Condition} (h : ∀ d ∈ c, d.WellFormed) : FilterMeans (filterOf c) c := by
  cases c with
  | none => rfl
  | some c => exact ⟨c, rfl, testOf_means (h c rfl)⟩

theorem map_ofList_toList (names : List String) : (names.map String.toList).map String.ofList = names := by
  rw [List.map_map]
  exact List.map_id'' (fun _ => String.ofList_toList) names

theorem key_itemOf (k : SortKey) : (itemOf k).key = k := by
  simp [itemOf, SortItem.key]

theorem keys_itemOf (keys : List SortKey) : (keys.map itemOf).map SortItem.key = keys := by
  rw [List.map_map]
  exact List.map_id'' key_itemOf keys

theorem filterMap_countOf {α : Type} (read : Clause → Option α) (clause : List Char → Clause) (n : UInt64) :
    (countOf clause n).filterMap read = if n = 0 then [] else (read (clause (writeNat n.toNat))).toList := by
  rw [countOf]
  split
  · rfl
  · rw [List.filterMap_cons]
    cases read (clause (writeNat n.toNat)) <;> rfl

theorem filterMap_orderOf {α : Type} (read : Clause → Option α) (keys : List SortKey)
    (h : ∀ first more, read (.order first more) = none) : (orderOf keys).filterMap read = [] := by
  cases keys with
  | nil => rfl
  | cons first more => rw [orderOf, List.filterMap_cons, h, List.filterMap_nil]

theorem lastOf_sorts (q : SelectQuery) : lastOf Clause.sorts? (selectOf q).tail [] = q.sorts := by
  rw [lastOf, selectOf, List.filterMap_append, List.filterMap_append, filterMap_countOf, filterMap_countOf]
  cases q.sorts with
  | nil => simp [orderOf, Clause.sorts?]
  | cons first more =>
    have hkeys := keys_itemOf (first :: more)
    rw [List.map_cons] at hkeys
    simp [orderOf, Clause.sorts?, hkeys]

theorem lastOf_skip (q : SelectQuery) : lastOf Clause.skip? (selectOf q).tail 0 = q.skip.toNat := by
  rw [lastOf, selectOf, List.filterMap_append, List.filterMap_append, filterMap_countOf, filterMap_countOf,
    filterMap_orderOf _ _ fun _ _ => rfl]
  by_cases h : q.skip = 0 <;> simp [h, Clause.skip?]

theorem lastOf_limit (q : SelectQuery) : lastOf Clause.limit? (selectOf q).tail 0 = q.limit.toNat := by
  rw [lastOf, selectOf, List.filterMap_append, List.filterMap_append, filterMap_countOf, filterMap_countOf,
    filterMap_orderOf _ _ fun _ _ => rfl]
  by_cases h : q.limit = 0 <;> simp [h, Clause.limit?]

theorem counts_selectOf (q : SelectQuery) : ∀ n ∈ (selectOf q).tail.filterMap Clause.count?, n < UInt64.size := by
  intro n hn
  rw [selectOf, List.filterMap_append, List.filterMap_append, filterMap_countOf, filterMap_countOf,
    filterMap_orderOf _ _ fun _ _ => rfl] at hn
  have hskip := q.skip.toNat_lt_size
  have hlimit := q.limit.toNat_lt_size
  rcases List.mem_append.mp hn with hn | hn <;> split at hn
  · cases hn
  · simp [Clause.count?, Clause.skip?] at hn
    omega
  · cases hn
  · simp [Clause.count?, Clause.skip?, Clause.limit?] at hn
    omega

theorem selectOf_means {q : SelectQuery} (h : ∀ c ∈ q.condition, c.WellFormed) : (selectOf q).Means q where
  entity := String.ofList_toList.symm
  fields := by
    show q.fields = (fieldsOf q.fields).names.map String.ofList
    cases q.fields with
    | nil => rfl
    | cons first more => exact (map_ofList_toList (first :: more)).symm
  condition := filterOf_means h
  counts := counts_selectOf q
  sorts := (lastOf_sorts q).symm
  skip := (lastOf_skip q).symm
  limit := (lastOf_limit q).symm

theorem phraseOf_means {q : Query} (h : q.WellFormed) : (phraseOf q).Means q := by
  cases q with
  | select q => exact selectOf_means h.condition
  | delete q => exact ⟨String.ofList_toList.symm, filterOf_means h.condition⟩

/-! ### Printing -/

/-- A word, a space and more. -/
theorem Prints.behind {w : Word} {text text' : List Char} {words : List Word} (hw : w.SpelledAs text)
    (h : Prints text' words) : Prints (text ++ ' ' :: text') (w :: words) :=
  (prints_word hw).append h.space (Free.space text')

/-- A keyword in capitals, a space and more. -/
theorem Prints.keyword {text : List Char} {words : List Word} (h : Prints text words) (k : Keyword)
    (capitals : String) (hk : capitals.toList.map Char.toLower = k.word.toList := by decide) :
    Prints (capitals.toList ++ ' ' :: text) (.keyword k :: words) :=
  Prints.behind hk h

theorem prints_name {n : String} (h : IsName n.toList) : Prints n.toList [.name n.toList] :=
  prints_word ⟨h, rfl⟩

/-- Items with a comma and a space between them. -/
theorem prints_commaSeparated {α : Type} {write : α → List Char} {words : α → List Word} (first : α)
    (more : List α) (h : ∀ a ∈ first :: more, Prints (write a) (words a)) :
    Prints (Text.commaSeparated ((first :: more).map write)) (listed (words first) (more.map words)) := by
  have hmore : ∀ items : List α, (∀ a ∈ items, Prints (write a) (words a)) →
      Free ((items.map write).flatMap (", ".toList ++ ·)) ∧
        Prints ((items.map write).flatMap (", ".toList ++ ·)) ((items.map words).flatMap (.comma :: ·)) := by
    intro items hitems
    induction items with
    | nil => exact ⟨Free.nil, prints_nil⟩
    | cons a items ih =>
      obtain ⟨he, hp⟩ := ih fun b hb => hitems b (List.mem_cons_of_mem a hb)
      refine ⟨Free.cons (by decide), ?_⟩
      have hcomma : Word.comma.SpelledAs [','] := rfl
      have hitem := Prints.behind hcomma (hitems a List.mem_cons_self)
      exact hitem.append hp he
  obtain ⟨he, hp⟩ := hmore more fun a ha => h a (List.mem_cons_of_mem first ha)
  exact (h first List.mem_cons_self).append hp he

/-! ### The clauses of a query -/

theorem prints_fields {names : List String} (h : ∀ n ∈ names, IsName n.toList) :
    Prints (writeFields names) (fieldsOf names).words := by
  cases names with
  | nil => exact prints_word (w := .star) rfl
  | cons first more =>
    have hlist := prints_commaSeparated first more fun n hn => prints_name (h n hn)
    rw [writeFields, fieldsOf, Fields.words, List.map_map]
    exact hlist

theorem prints_literal {v : Value} (h : v.IsScalar) : Prints v.write [.literal v.write] :=
  prints_word ⟨(denotes_write h).1, rfl⟩

theorem prints_test {c : Condition} (hname : IsName c.field.toList) (h : c.WellFormed) :
    Prints c.write (testOf c).words := by
  obtain ⟨field, operator, operand⟩ := c
  rw [Condition.write, List.append_assoc, List.cons_append]
  rcases h.operand with hv | ⟨low, high, rfl, hlow, hhigh⟩
  · have hsign : operator.isRange = false := by
      rw [Bool.eq_false_iff, Ne, Operator.isRange_iff, h.fits]
      cases operand with
      | pair => cases hv
      | _ => exact Bool.false_ne_true
    rw [testOf_scalar hv]
    exact Prints.behind (w := .name field.toList) ⟨hname, rfl⟩
      (Prints.behind (w := .sign operator) ⟨hsign, rfl⟩ (prints_literal hv))
  · obtain rfl : operator = .between := h.fits.mpr rfl
    have hbounds := Prints.behind (w := .literal low.write) ⟨(denotes_write hlow).1, rfl⟩
      ((prints_literal hhigh).keyword .and "AND")
    have hpair : (Value.pair low high).write = low.write ++ (" AND ".toList ++ high.write) :=
      List.append_assoc low.write " AND ".toList high.write
    rw [hpair]
    exact Prints.behind (w := .name field.toList) ⟨hname, rfl⟩
      (hbounds.keyword .between "BETWEEN")

theorem prints_filter {c : Option Condition} (hnames : ∀ n ∈ conditionNames c, IsName n.toList)
    (h : ∀ d ∈ c, d.WellFormed) :
    Prints (writeCondition c) (filterWords (filterOf c)) ∧ Free (writeCondition c) := by
  cases c with
  | none => exact ⟨prints_nil, Free.nil⟩
  | some c =>
    have htest := prints_test (hnames c.field (List.mem_singleton.mpr rfl)) (h c rfl)
    exact ⟨(htest.keyword .whereWord "WHERE").space, Free.space _⟩

theorem prints_sortKey {k : SortKey} (h : IsName k.field.toList) : Prints k.write (itemOf k).words := by
  obtain ⟨field, direction⟩ := k
  cases direction with
  | ascending =>
    have hasc : (Word.keyword .asc).SpelledAs "ASC".toList := (by decide : "ASC".toList.map Char.toLower = _)
    exact Prints.behind (w := .name field.toList) ⟨h, rfl⟩ (prints_word hasc)
  | descending =>
    have hdesc : (Word.keyword .desc).SpelledAs "DESC".toList := (by decide : "DESC".toList.map Char.toLower = _)
    exact Prints.behind (w := .name field.toList) ⟨h, rfl⟩ (prints_word hdesc)

theorem prints_sorts {keys : List SortKey} (h : ∀ k ∈ keys, IsName k.field.toList) :
    Prints (writeSorts keys) ((orderOf keys).flatMap Clause.words) ∧ Free (writeSorts keys) := by
  cases keys with
  | nil => exact ⟨prints_nil, Free.nil⟩
  | cons first more =>
    have hkeys := prints_commaSeparated first more fun k hk => prints_sortKey (h k hk)
    have hclause := ((hkeys.keyword .byWord "BY").keyword .order "ORDER").space
    refine ⟨?_, Free.space _⟩
    rw [orderOf, List.flatMap_singleton, Clause.words, List.map_map]
    exact hclause

theorem prints_count (k : Keyword) (text : String) (clause : List Char → Clause)
    (hwords : ∀ ds, (clause ds).words = [.keyword k, .count ds]) (n : UInt64)
    (hk : text.toList.map Char.toLower = k.word.toList := by decide) :
    Prints (writeCount text n) ((countOf clause n).flatMap Clause.words) ∧ Free (writeCount text n) := by
  rw [writeCount, countOf]
  split
  · exact ⟨prints_nil, Free.nil⟩
  · have hcount := prints_word (w := .count (writeNat n.toNat)) ⟨isDigits_writeNat n.toNat, rfl⟩
    refine ⟨?_, Free.space _⟩
    rw [List.flatMap_singleton, hwords]
    exact (hcount.keyword k text hk).space

/-! ### Statements -/

theorem prints_select {q : SelectQuery} (h : (Query.select q).WellFormed) :
    Prints q.write (selectOf q).words := by
  have hentity : IsName q.entity.toList := h.names q.entity (by simp [Query.names])
  have hfields := prints_fields fun n (hn : n ∈ q.fields) => h.names n (by simp [Query.names, hn])
  have hsorts := prints_sorts fun k (hk : k ∈ q.sorts) => h.names k.field (by
    simp only [Query.names, List.mem_cons, List.mem_append, List.mem_map]
    exact Or.inr (Or.inl (Or.inr ⟨k, hk, rfl⟩)))
  have hfilter := prints_filter (c := q.condition) (fun n hn => h.names n (by simp [Query.names, hn])) h.condition
  have hskip := prints_count .skip "SKIP" .skip (fun _ => rfl) q.skip
  have hlimit := prints_count .limit "LIMIT" .limit (fun _ => rfl) q.limit
  have htail := (hsorts.1.append hskip.1 hskip.2).append hlimit.1 hlimit.2
  have hrest := hfilter.1.append htail ((hsorts.2.append hskip.2).append hlimit.2)
  have hentity := (prints_name hentity).append hrest (hfilter.2.append ((hsorts.2.append hskip.2).append hlimit.2))
  have hfrom := (hentity.keyword .fromWord "FROM").space
  have hselect := (hfields.append hfrom (Free.space _)).keyword .select "SELECT"
  have hlead : "SELECT ".toList = "SELECT".toList ++ [' '] := by decide
  have hmiddle : " FROM ".toList = ' ' :: ("FROM".toList ++ [' ']) := by decide
  show Prints ("SELECT ".toList ++ writeFields q.fields ++ " FROM ".toList ++ q.entity.toList ++
    writeCondition q.condition ++ writeSorts q.sorts ++ writeCount "SKIP" q.skip ++ writeCount "LIMIT" q.limit) _
  rw [hlead, hmiddle]
  simp only [List.append_assoc, List.cons_append, List.nil_append] at hselect ⊢
  rw [selectOf, Select.words, List.flatMap_append, List.flatMap_append]
  simp only [List.append_assoc]
  exact hselect

theorem prints_delete {q : DeleteQuery} (h : (Query.delete q).WellFormed) :
    Prints q.write (deleteOf q).words := by
  have hentity : IsName q.entity.toList := h.names q.entity (by simp [Query.names])
  have hfilter := prints_filter (c := q.condition) (fun n hn => h.names n (by simp [Query.names, hn])) h.condition
  have hentity := (prints_name hentity).append hfilter.1 hfilter.2
  have hdelete := (hentity.keyword .fromWord "FROM").keyword .delete "DELETE"
  have hlead : "DELETE FROM ".toList = "DELETE".toList ++ ' ' :: ("FROM".toList ++ [' ']) := by decide
  show Prints ("DELETE FROM ".toList ++ q.entity.toList ++ writeCondition q.condition) _
  rw [hlead]
  simp only [List.append_assoc, List.cons_append, List.nil_append] at hdelete ⊢
  exact hdelete

theorem prints_query {q : Query} (h : q.WellFormed) : Prints q.write (phraseOf q).words := by
  cases q with
  | select q => exact prints_select h
  | delete q => exact prints_delete h

/-- A well-formed query compiles back from its written form. -/
theorem compile_render {q : Query} (h : q.WellFormed) : compile q.render = .ok q := by
  refine (compileText_eq_ok_iff recognises_statement compileStatement_eq_ok_iff).mpr
    ⟨phraseOf q, ?_, phraseOf_means h⟩
  have hcut := prints_query h Free.nil (.done fun _ hc => absurd hc List.not_mem_nil)
  rw [List.append_nil, List.append_nil] at hcut
  rwa [Query.render, String.toList_ofList]

/-- A range from a text to the negative zero comes back as it was. -/
theorem compile_render_range :
    ∃ q : Query, q.WellFormed ∧
      q.render = "SELECT selected, _1.from FROM by_ WHERE n BETWEEN 'it\\'s a \\\\' AND -0.0 ORDER BY asc1 DESC SKIP 9" ∧
      compile q.render = .ok q := by
  have hzero : (-0.0 : Float).isFinite = true := by decide
  have h : (Query.select ⟨"by_", ["selected", "_1.from"], [.desc "asc1"], 9, 0,
      some ⟨"n", .between, .pair (.string "it's a \\") (.number (.float (-0.0)))⟩⟩).WellFormed := by
    refine ⟨by decide, fun c hc => ?_⟩
    obtain rfl := Option.some.inj hc
    exact ⟨by decide, Or.inr ⟨_, _, rfl, trivial, hzero⟩⟩
  exact ⟨_, h, by decide +kernel, compile_render h⟩

end EntityQuery.Language
