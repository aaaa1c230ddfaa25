import EntityQuery.Proofs.Language.Exchange
import EntityQuery.Proofs.Language.Located

/-! # Layout and the case of letters

A text may be laid out anew: what stands between two words may be any layout, as long as words that are apart
stay apart, and keywords, the words that are values and the mark of an exponent may be written in any case
(`Relaid`). The new text has the same words but for the case of a literal, which stands for the same value, so the
text compiles to the same query. -/

namespace EntityQuery.Language
open Grammar Decimal

/-! ### The case of letters -/

/-- The same text, but for the case of letters. -/
def Recased (cs cs' : List Char) : Prop :=
  cs'.map Char.toLower = cs.map Char.toLower

section Recased
variable {cs cs' : List Char}

theorem isWordChar_eq_of_toLower {c c' : Char} (h : c'.toLower = c.toLower) : isWordChar c' = isWordChar c := by
  rw [← isWordChar_toLower, h, isWordChar_toLower]

theorem eq_of_toLower {c c' : Char} (h : c'.toLower = c.toLower) (hc : c.isAlpha = false) : c' = c := by
  have hc' : c'.isAlpha = false := by
    rw [← Char.isAlpha_toLower_eq_isAlpha, h, Char.isAlpha_toLower_eq_isAlpha, hc]
  have not_upper : ∀ {d : Char}, d.isAlpha = false → ¬d.isUpper = true := by
    intro d hd hupper
    rw [Char.isAlpha, hupper, Bool.true_or] at hd
    cases hd
  rwa [Char.toLower_eq_of_not_isUpper (not_upper hc'), Char.toLower_eq_of_not_isUpper (not_upper hc)] at h

theorem isAlpha_eq_false_of_isDigit {c : Char} (h : c.isDigit = true) : c.isAlpha = false := by
  have hc := Char.isDigit_iff_toNat.mp h
  have h9 : c.toNat ≤ 57 := hc.2
  rw [Bool.eq_false_iff, Ne, isAlpha_iff]
  omega

/-- A text without letters has no other case. -/
theorem Recased.eq (h : Recased cs cs') (hcs : ∀ c ∈ cs, c.isAlpha = false) : cs' = cs := by
  induction cs generalizing cs' with
  | nil => exact List.map_eq_nil_iff.mp h
  | cons c cs ih =>
    obtain ⟨c', tail, rfl, hc, htail⟩ := List.map_eq_cons_iff.mp (h : cs'.map Char.toLower = c.toLower :: _)
    rw [eq_of_toLower hc (hcs c List.mem_cons_self), ih htail fun d hd => hcs d (List.mem_cons_of_mem _ hd)]

theorem Recased.append_left {front back : List Char} (h : Recased (front ++ back) cs')
    (hfront : ∀ c ∈ front, c.isAlpha = false) : ∃ back', cs' = front ++ back' ∧ Recased back back' := by
  rw [Recased, List.map_append] at h
  obtain ⟨front', back', rfl, hf, hb⟩ := List.map_eq_append_iff.mp h
  exact ⟨back', by rw [Recased.eq hf hfront], hb⟩

theorem eq_mark_of_toLower {c c' : Char} (h : c'.toLower = c.toLower) (hc : c = 'e' ∨ c = 'E') :
    c' = 'e' ∨ c' = 'E' := by
  have hlower : c'.toLower.toNat = 101 := by
    rw [h]
    rcases hc with rfl | rfl <;> rfl
  rw [toNat_toLower] at hlower
  split at hlower
  · exact Or.inr (Char.ext (UInt32.toNat_inj.mp (show c'.toNat = 69 by omega)))
  · exact Or.inl (Char.ext (UInt32.toNat_inj.mp (show c'.toNat = 101 by omega)))

theorem unlettered_of_isDigits {ds : List Char} (h : isDigits ds = true) : ∀ c ∈ ds, c.isAlpha = false :=
  fun c hc => isAlpha_eq_false_of_isDigit ((isDigits_iff.mp h).2 c hc)

theorem ExponentIs.recased {mark mark' : List Char} {e : Int} (h : ExponentIs mark e) (hr : Recased mark mark') :
    ExponentIs mark' e := by
  cases h with
  | absent =>
    rw [hr.eq (List.forall_mem_nil _)]
    exact .absent
  | @positive mark sign ds hmark hsign hds =>
    obtain ⟨mark', tail, rfl, hm, htail⟩ := List.map_eq_cons_iff.mp hr
    have hplain : ∀ c ∈ sign, c.isAlpha = false := by
      rcases hsign with rfl | rfl
      · exact List.forall_mem_nil _
      · exact List.forall_mem_singleton.mpr (by decide)
    rw [Recased.eq htail (List.forall_mem_append.mpr ⟨hplain, unlettered_of_isDigits hds⟩)]
    exact .positive (eq_mark_of_toLower hm hmark) hsign hds
  | @negative mark ds hmark hds =>
    obtain ⟨mark', tail, rfl, hm, htail⟩ := List.map_eq_cons_iff.mp hr
    rw [Recased.eq htail (List.forall_mem_cons.mpr ⟨by decide, unlettered_of_isDigits hds⟩)]
    exact .negative (eq_mark_of_toLower hm hmark) hds

/-- A number in another case is a number that is read as the same double. -/
theorem IsNumber.recased (h : IsNumber cs) (hr : Recased cs cs') :
    IsNumber cs' ∧ readDecimal cs' = readDecimal cs := by
  obtain ⟨hsign, hwhole, hfraction, hmark⟩ := h
  rename_i sign whole fraction mark
  have hplain : ∀ c ∈ sign ++ whole ++ fraction, c.isAlpha = false := by
    refine List.forall_mem_append.mpr ⟨List.forall_mem_append.mpr ⟨?_, unlettered_of_isDigits hwhole⟩, ?_⟩
    · rcases hsign with rfl | rfl
      · exact List.forall_mem_nil _
      · exact List.forall_mem_singleton.mpr (by decide)
    · cases hfraction with
      | absent => exact List.forall_mem_nil _
      | digits hds => exact List.forall_mem_cons.mpr ⟨by decide, unlettered_of_isDigits hds⟩
  obtain ⟨mark', rfl, hmark'⟩ := hr.append_left hplain
  obtain ⟨e, he⟩ := exists_exponentIs hmark
  have he' := he.recased hmark'
  refine ⟨(Exact.parts hsign hwhole hfraction he').isNumber, ?_⟩
  rw [readDecimal_parts hsign hwhole hfraction he, readDecimal_parts hsign hwhole hfraction he']

theorem Whole.recased {n : Int} (h : Whole cs n) (hr : Recased cs cs') : cs' = cs := by
  cases h with
  | positive hds => exact hr.eq (unlettered_of_isDigits hds)
  | negative hds => exact hr.eq (List.forall_mem_cons.mpr ⟨by decide, unlettered_of_isDigits hds⟩)

/-! ### Literals in another case -/

theorem Quoted.head {l : List Char} (h : Quoted l) : ∃ c ∈ l.head?, Text.isQuote c = true := by
  obtain ⟨hq, -⟩ := h
  exact ⟨_, rfl, hq⟩

/-- Another spelling of a literal: without quotes its letters may change their case. -/
def Reliteral (l l' : List Char) : Prop :=
  Recased l l' ∧ (Quoted l → l' = l)

theorem Reliteral.isLiteral {l l' : List Char} (h : Reliteral l l') (hl : IsLiteral l) : IsLiteral l' := by
  cases hl with
  | quoted hq hbody =>
    rw [h.2 (.enclosed hq hbody)]
    exact .quoted hq hbody
  | number hn => exact .number (hn.recased h.1).1
  | word hw => exact .word (h.1 ▸ hw)

theorem Unescaped.isQuotedBody {quote : Char} {body text : List Char} (h : Unescaped quote body text) :
    IsQuotedBody quote body := by
  induction h with
  | nil => exact .nil
  | plain hquote hslash _ ih => exact .plain hquote hslash ih
  | dropped _ _ ih => exact .escaped ih
  | kept _ _ ih => exact .escaped ih

/-- A literal in another case stands for the same value. -/
theorem Reliteral.denotes {l l' : List Char} (h : Reliteral l l') {v : Value} (hv : Denotes l v) : Denotes l' v := by
  cases hv with
  | quoted hq hbody =>
    rw [h.2 (.enclosed hq hbody.isQuotedBody)]
    exact .quoted hq hbody
  | integer hn hfits =>
    rw [hn.recased h.1]
    exact .integer hn hfits
  | float hn hwhole hread hfinite =>
    obtain ⟨hn', hread'⟩ := hn.recased h.1
    refine .float hn' (fun n hw => ?_) (hread'.trans hread) hfinite
    rw [← hw.recased h.1.symm] at hw
    exact hwhole n hw
  | yes hw => exact .yes (h.1.trans hw)
  | no hw => exact .no (h.1.trans hw)
  | null hw => exact .null (h.1.trans hw)

end Recased

/-! ### Texts laid out anew -/

/-- Another spelling of the text of a word. -/
def Word.Respelled : Word → List Char → List Char → Prop
  | .keyword _, cs, cs' => Recased cs cs'
  | .literal _, cs, cs' => Reliteral cs cs'
  | _, cs, cs' => cs' = cs

/-- A text that is cut into words, and the same words laid out anew and spelled in another case. Layout may
    be put anywhere between them, and is left wherever it is. -/
inductive Relaid : List Char → List Word → List Char → Prop
  | done {gap gap' : List Char} : Layout gap → Layout gap' → Relaid gap [] gap'
  | word {gap gap' cs cs' rest rest' : List Char} {w : Word} {ws : List Word} : Layout gap → Layout gap' →
      (gap ≠ [] → gap' ≠ []) → w.SpelledAs cs → w.EndsBefore rest → w.Respelled cs cs' → Relaid rest ws rest' →
      Relaid (gap ++ cs ++ rest) (w :: ws) (gap' ++ cs' ++ rest')

/-- The same word, or a literal in another case. -/
def Word.Alike : Word → Word → Prop
  | .literal l, w => ∃ l', w = .literal l' ∧ Reliteral l l'
  | v, w => w = v

/-- What follows begins with layout, or with the same character in any case. -/
def Follows (rest rest' : List Char) : Prop :=
  ∀ c' ∈ rest'.head?, isLayout c' = true ∨ ∃ c ∈ rest.head?, c'.toLower = c.toLower

section Relaid
variable {cs cs' : List Char} {ws : List Word}

theorem Relaid.cut (h : Relaid cs ws cs') : Cut cs ws := by
  induction h with
  | done hgap _ => exact .done hgap
  | word hgap _ _ hs he _ _ ih => exact .word hgap hs he ih

theorem Word.Respelled.recased {w : Word} (h : w.Respelled cs cs') : Recased cs cs' := by
  cases w with
  | keyword k => exact h
  | literal l => exact h.1
  | _ => rw [show cs' = cs from h]; rfl

theorem Relaid.follows (h : Relaid cs ws cs') : Follows cs cs' := by
  intro c' hc'
  cases h with
  | done _ hgap' => exact Or.inl (hgap' c' (List.mem_of_mem_head? hc'))
  | @word gap gap' cs cs' rest rest' w ws _ hgap' happart hs _ hr _ =>
    cases gap' with
    | cons d gap' =>
      obtain rfl := Option.some.inj hc'
      exact Or.inl (hgap' d List.mem_cons_self)
    | nil =>
      -- No layout stands in front of the new word, so none stood in front of the old one.
      obtain rfl : gap = [] := by_contra fun hne => happart hne rfl
      obtain ⟨c, tail, rfl, -⟩ := mayBegin_of_spelledAs hs
      obtain ⟨d, tail', rfl, hd, -⟩ := List.map_eq_cons_iff.mp hr.recased
      obtain rfl := Option.some.inj hc'
      exact Or.inr ⟨c, rfl, hd⟩

theorem Follows.startsWord {rest rest' : List Char} (h : Follows rest rest') (hrest : startsWord rest = false) :
    startsWord rest' = false := by
  cases rest' with
  | nil => rfl
  | cons c' tail' =>
    rcases h c' rfl with hlayout | ⟨c, hc, hlower⟩
    · exact (Bool.or_eq_false_iff.mp (isNameChar_of_isLayout hlayout)).1
    · obtain ⟨tail, rfl⟩ := List.head?_eq_some_iff.mp hc
      exact (isWordChar_eq_of_toLower hlower).trans hrest

theorem Follows.isNameChar {rest rest' : List Char} (h : Follows rest rest')
    (hrest : ∀ c ∈ rest.head?, isNameChar c = false) : ∀ c' ∈ rest'.head?, isNameChar c' = false := by
  intro c' hc'
  rcases h c' hc' with hlayout | ⟨c, hc, hlower⟩
  · exact isNameChar_of_isLayout hlayout
  · have hname := hrest c hc
    rw [Grammar.isNameChar, Bool.or_eq_false_iff, beq_eq_false_iff_ne] at hname ⊢
    refine ⟨(isWordChar_eq_of_toLower hlower).trans hname.1, ?_⟩
    rintro rfl
    exact hname.2 (eq_of_toLower hlower.symm (by decide))

/-- A word in another spelling is a word of the same kind, and ends wherever layout and the words behind it are
    laid out anew. -/
theorem Word.Respelled.alike {w : Word} (h : w.Respelled cs cs') (hs : w.SpelledAs cs) {rest rest' : List Char}
    (he : w.EndsBefore rest) (hrest : Follows rest rest') :
    ∃ w', w.Alike w' ∧ w'.SpelledAs cs' ∧ w'.EndsBefore rest' := by
  cases w with
  | keyword k => exact ⟨_, rfl, h.trans hs, hrest.startsWord he⟩
  | star => exact ⟨_, rfl, (show cs' = cs from h) ▸ hs, trivial⟩
  | comma => exact ⟨_, rfl, (show cs' = cs from h) ▸ hs, trivial⟩
  | sign o => exact ⟨_, rfl, (show cs' = cs from h) ▸ hs, trivial⟩
  | name n => exact ⟨_, rfl, (show cs' = cs from h) ▸ hs, hrest.isNameChar he⟩
  | count ds => exact ⟨_, rfl, (show cs' = cs from h) ▸ hs, hrest.startsWord he⟩
  | literal l =>
    obtain ⟨hl, rfl⟩ := hs
    refine ⟨.literal cs', ⟨cs', rfl, h⟩, ⟨h.isLiteral hl, rfl⟩, ?_⟩
    rcases he with hquoted | hword
    · rw [h.2 (quoted_of_head hl hquoted)]
      exact Or.inl hquoted
    · exact Or.inr (hrest.startsWord hword)

theorem Relaid.recut (h : Relaid cs ws cs') : ∃ ws', List.Forall₂ Word.Alike ws ws' ∧ Cut cs' ws' := by
  induction h with
  | done _ hgap' => exact ⟨[], .nil, .done hgap'⟩
  | word _ hgap' _ hs he hr hrest ih =>
    obtain ⟨ws', hws, hcut⟩ := ih
    obtain ⟨w', hw, hs', he'⟩ := hr.alike hs he hrest.follows
    exact ⟨w' :: ws', .cons hw hws, .word hgap' hs' he' hcut⟩

end Relaid

/-! ### Statements with literals in another case -/

section Words
variable {ws ws' : List Word}

theorem forall₂_append_inv {α β : Type} {r : α → β → Prop} {xs ys : List α} {zs : List β}
    (h : List.Forall₂ r (xs ++ ys) zs) :
    ∃ us vs, zs = us ++ vs ∧ List.Forall₂ r xs us ∧ List.Forall₂ r ys vs := by
  induction xs generalizing zs with
  | nil => exact ⟨[], zs, rfl, .nil, h⟩
  | cons x xs ih =>
    obtain ⟨u, rest, hu, hrest, rfl⟩ := List.forall₂_cons_left_iff.mp h
    obtain ⟨us, vs, rfl, hus, hvs⟩ := ih hrest
    exact ⟨u :: us, vs, rfl, .cons hu hus, hvs⟩

/-- Words without a literal are like themselves only. -/
theorem eq_of_alike (hws : ∀ w ∈ ws, ∀ l, w ≠ .literal l) (h : List.Forall₂ Word.Alike ws ws') : ws' = ws := by
  induction h with
  | nil => rfl
  | @cons w w' ws ws' hw _ ih =>
    rw [ih fun v hv => hws v (List.mem_cons_of_mem _ hv)]
    cases w with
    | literal l => exact absurd rfl (hws _ List.mem_cons_self l)
    | _ => rw [show w' = _ from hw]

/-- Behind words without a literal, words are like those that stand there. -/
theorem alike_append {front back : List Word} (hfront : ∀ w ∈ front, ∀ l, w ≠ .literal l)
    (h : List.Forall₂ Word.Alike (front ++ back) ws') :
    ∃ back', ws' = front ++ back' ∧ List.Forall₂ Word.Alike back back' := by
  obtain ⟨front', back', rfl, hf, hb⟩ := forall₂_append_inv h
  exact ⟨back', by rw [eq_of_alike hfront hf], hb⟩

theorem Word.Quiet.ne_literal {w : Word} (h : w.Quiet) (l : List Char) : w ≠ .literal l := by
  rintro rfl
  exact h

theorem Clause.ne_literal (b : Clause) : ∀ w ∈ b.words, ∀ l, w ≠ .literal l := by
  intro w hw
  cases b with
  | order first more => exact (quiet_order hw).ne_literal
  | skip ds => revert w; simp [Clause.words]
  | limit ds => revert w; simp [Clause.words]

theorem Test.exists_alike {t : Test} (h : List.Forall₂ Word.Alike t.words ws') :
    ∃ t' : Test, t'.words = ws' ∧ ∀ c, t.Means c → t'.Means c := by
  cases t with
  | compare field operator operand =>
    obtain _ | ⟨hfield, _ | ⟨hsign, _ | ⟨⟨operand', rfl, hl⟩, _ | _⟩⟩⟩ := h
    obtain rfl := hfield
    obtain rfl := hsign
    refine ⟨.compare field operator operand', rfl, ?_⟩
    rintro c ⟨hfield, hoperator, hv⟩
    exact ⟨hfield, hoperator, hl.denotes hv⟩
  | range field low high =>
    obtain _ | ⟨hfield, _ | ⟨hbetween, _ | ⟨⟨low', rfl, hl⟩, _ | ⟨hand, _ | ⟨⟨high', rfl, hh⟩, _ | _⟩⟩⟩⟩⟩ := h
    obtain rfl := hfield
    obtain rfl := hbetween
    obtain rfl := hand
    refine ⟨.range field low' high', rfl, ?_⟩
    rintro c ⟨hfield, hoperator, v, v', hv, hv', hpair⟩
    exact ⟨hfield, hoperator, v, v', hl.denotes hv, hh.denotes hv', hpair⟩

theorem exists_alike_filter {f : Option Filter} (h : List.Forall₂ Word.Alike (filterWords f) ws') :
    ∃ f', filterWords f' = ws' ∧ ∀ c, FilterMeans f c → FilterMeans f' c := by
  cases f with
  | none =>
    obtain rfl := List.forall₂_nil_left_iff.mp h
    exact ⟨none, rfl, fun _ hc => hc⟩
  | some f =>
    have hfront : ∀ w ∈ Word.keyword .whereWord :: (if f.negated then [.keyword .not] else []),
        ∀ l, w ≠ .literal l := by
      cases f.negated <;> simp
    obtain ⟨test', rfl, htest⟩ := alike_append hfront h
    obtain ⟨t', rfl, ht⟩ := Test.exists_alike htest
    refine ⟨some { negated := f.negated, test := t' }, rfl, ?_⟩
    rintro c ⟨d, rfl, hd⟩
    exact ⟨d, rfl, ht d hd⟩

/-- Words that are like those of a statement are the words of a statement that means the same. -/
theorem Statement.exists_alike {s : Statement} (h : List.Forall₂ Word.Alike s.words ws') :
    ∃ s' : Statement, s'.words = ws' ∧ ∀ q, s.Means q → s'.Means q := by
  -- Only the condition has literals: the words in front of it and behind it stay as they are.
  cases s with
  | select s =>
    have hfront : ∀ w ∈ Word.keyword .select :: (s.fields.words ++ [.keyword .fromWord, .name s.entity]),
        ∀ l, w ≠ .literal l := by
      simp only [List.forall_mem_cons, List.forall_mem_append]
      exact ⟨by simp, fun w hw => (s.fields.quiet w hw).ne_literal, by simp⟩
    have htail : ∀ w ∈ s.tail.flatMap Clause.words, ∀ l, w ≠ .literal l := by
      intro w hw
      obtain ⟨b, -, hb⟩ := List.mem_flatMap.mp hw
      exact b.ne_literal w hb
    have hwords : (Statement.select s).words = Word.keyword .select :: (s.fields.words ++
        [.keyword .fromWord, .name s.entity]) ++ (filterWords s.filter ++ s.tail.flatMap Clause.words) := by
      simp [Statement.words, Select.words]
    obtain ⟨_, rfl, hback⟩ := alike_append hfront (hwords ▸ h)
    obtain ⟨_, _, rfl, hfilter, hclauses⟩ := forall₂_append_inv hback
    obtain ⟨f', rfl, hf⟩ := exists_alike_filter hfilter
    refine ⟨.select { s with filter := f' }, ?_, fun q hq => ?_⟩
    · rw [eq_of_alike htail hclauses]
      simp [Statement.words, Select.words]
    · cases q with
      | select q => exact { hq with condition := hf _ hq.condition }
      | delete q => cases hq
  | delete s =>
    have hfront : ∀ w ∈ [Word.keyword .delete, .keyword .fromWord, .name s.entity], ∀ l, w ≠ .literal l := by simp
    obtain ⟨_, rfl, hfilter⟩ := alike_append hfront h
    obtain ⟨f', rfl, hf⟩ := exists_alike_filter hfilter
    refine ⟨.delete { s with filter := f' }, rfl, fun q hq => ?_⟩
    cases q with
    | select q => cases hq
    | delete q => exact { hq with condition := hf _ hq.condition }

end Words

end EntityQuery.Language

namespace EntityQuery
open Grammar EntityQuery.Language

/-! ### The forms -/

section Forms
variable {form : Form} {text text' : String} {q : Query}

/-- The same text may be cut into words in other ways: a text that compiles means the query in each of them. -/
theorem means_of_compile {s : Language.Statement} (hs : Cut text.toList s.words) (h : compile text = .ok q) :
    s.Means q := by
  have hread : ∃ a, anyText.read text = .ok a ∧ s.Of a := recognises_statement.whole_read hs
  obtain ⟨a, ha, hof⟩ := hread
  rw [compile, compileText, ha, mapError_eq_ok_iff] at h
  exact (compileStatement_eq_ok_iff hof (spelled_of_cut hs)).mp h

/-- Layout and the case of letters never change the query: a text that compiles is cut into the words of a
    statement, and compiles to the same query however these words are laid out and spelled. -/
theorem Form.compile_relaid (h : form.compile text = .ok q) :
    (∃ s : Language.Statement, Cut text.toList s.words) ∧
      ∀ (s : Language.Statement) (text' : String), Relaid text.toList s.words text'.toList →
        form.compile text' = .ok q := by
  obtain ⟨hcompile, hadmits⟩ := Form.compile_iff_admits.mp h
  constructor
  · obtain ⟨s, hcut, -⟩ := (compileText_eq_ok_iff recognises_statement compileStatement_eq_ok_iff).mp hcompile
    exact ⟨s, hcut⟩
  · intro s text' hrelaid
    refine Form.compile_iff_admits.mpr ⟨?_, hadmits⟩
    obtain ⟨ws', halike, hcut⟩ := hrelaid.recut
    obtain ⟨s', rfl, hmeans⟩ := Statement.exists_alike halike
    exact (compileText_eq_ok_iff recognises_statement compileStatement_eq_ok_iff).mpr
      ⟨s', hcut, hmeans q (means_of_compile hrelaid.cut hcompile)⟩

/-- A condition drawn apart, in lower case and with the mark of its exponent in upper case. -/
theorem Form.compile_relaid_apart : ∃ q, Form.any.compile "DELETE FROM T WHERE a=1e3" = .ok q ∧
    Form.any.compile " delete\tfrom T\nwhere a =\n1E3 " = .ok q := by
  have hq : Form.any.compile "DELETE FROM T WHERE a=1e3" =
      .ok (.delete ⟨"T", some ⟨"a", .equal, .number (.float (.ofBits 0x408F400000000000))⟩⟩) := by
    decide +kernel
  have hgap : ∀ c : Char, isLayout c = true → Layout [c] := fun c h => List.forall_mem_singleton.mpr h
  have hnumber : IsLiteral ['1', 'e', '3'] := .number (@IsNumber.parts [] ['1'] [] ['e', '3'] (Or.inl rfl) rfl .absent
    (@IsExponent.digits 'e' [] ['3'] (Or.inl rfl) (Or.inl rfl) rfl))
  have hliteral : Reliteral ['1', 'e', '3'] ['1', 'E', '3'] := by
    refine ⟨rfl, fun hquoted => ?_⟩
    obtain ⟨c, hc, hquote⟩ := hquoted.head
    obtain rfl := Option.some.inj hc
    cases hquote
  have hcase : ∀ cs ∈ ["DELETE".toList, "FROM".toList, "WHERE".toList], Recased cs (cs.map Char.toLower) := by
    simp only [Recased]
    decide +kernel
  -- The words from the last one to the first.
  have h := @Relaid.word [] ['\n'] _ _ _ _ (.literal ['1', 'e', '3']) _ layout_nil (hgap _ rfl) (absurd rfl)
    ⟨hnumber, rfl⟩ (Or.inr rfl) hliteral (.done layout_nil (hgap ' ' rfl))
  have h := @Relaid.word [] [' '] _ _ _ _ (.sign .equal) _ layout_nil (hgap _ rfl) (absurd rfl) ⟨rfl, rfl⟩ trivial rfl h
  have h := @Relaid.word [' '] [' '] _ _ _ _ (.name ['a']) _ (hgap _ rfl) (hgap _ rfl) id ⟨by decide, rfl⟩
    (by rintro _ ⟨⟩; rfl) rfl h
  have h := @Relaid.word [' '] ['\n'] "WHERE".toList _ _ _ (.keyword .whereWord) _ (hgap _ rfl) (hgap _ rfl)
    (fun _ => List.cons_ne_nil _ _) rfl (by exact rfl) (hcase _ (by simp)) h
  have h := @Relaid.word [' '] [' '] _ _ _ _ (.name ['T']) _ (hgap _ rfl) (hgap _ rfl) id ⟨by decide, rfl⟩
    (by rintro _ ⟨⟩; rfl) rfl h
  have h := @Relaid.word [' '] ['\t'] "FROM".toList _ _ _ (.keyword .fromWord) _ (hgap _ rfl) (hgap _ rfl)
    (fun _ => List.cons_ne_nil _ _) rfl (by exact rfl) (hcase _ (by simp)) h
  have h := @Relaid.word [] [' '] "DELETE".toList _ _ _ (.keyword .delete) _ layout_nil (hgap _ rfl)
    (absurd rfl) rfl (by exact rfl) (hcase _ (by simp)) h
  let s : Language.Statement :=
    .delete { entity := ['T'], filter := some { negated := false, test := .compare ['a'] .equal ['1', 'e', '3'] } }
  exact ⟨_, hq, (Form.compile_relaid hq).2 s _ h⟩

end Forms

end EntityQuery
