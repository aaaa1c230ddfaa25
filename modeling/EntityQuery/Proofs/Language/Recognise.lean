import Mathlib.Data.List.Forall2
import EntityQuery.Proofs.Language.Place
import EntityQuery.Proofs.Language.Tried

/-! # Patterns that recognise phrases

A pattern recognises phrases when it reads exactly the texts that can be cut into their words
(`Recognises`): what it reads is a phrase, and where the cut has a phrase, it is read. An ordered choice
and a greedy repetition do this only when the words tell the alternatives apart, so each way to combine
patterns has a condition on the words that follow; `Fails` says that a pattern is not tried in vain.

The same conditions make every place where a rule is tried a place where it can be found: what stands before
it goes on to a phrase with the rule there (`Resumes`). -/

namespace EntityQuery.Language
open Grammar

/-- What stands between two places goes on, behind a space, to a phrase of the pattern in which the rule is
    found at the second place. -/
def Resumes {α β : Type} (p : Pattern α) (words : β → List Word) (before : List Word → Prop) (rule : Rule)
    (c d : Cursor) : Prop :=
  ∃ b text more, c.rest = text ++ d.rest ∧ d.offset = c.offset + Text.byteLength text ∧
    ∀ ⦃rest : List Char⦄ ⦃ws : List Word⦄, Free rest → Cut rest ws → before ws →
      Cut (text ++ ' ' :: (more ++ rest)) (words b ++ ws) ∧
      p.Finds rule (Cursor.mk d.offset (' ' :: (more ++ rest))).skipLayout
        (Cursor.mk c.offset (text ++ ' ' :: (more ++ rest))).skipLayout

/-- The pattern reads a phrase wherever the cut has one with the right words behind it, and nothing
    else. There is such a phrase, and one behind what is read before any rule that is tried. -/
structure Recognises {α β : Type} (p : Pattern α) (of : β → α → Prop) (words : β → List Word)
    (before : List Word → Prop) : Prop where
  taken : ∀ ⦃c d : Cursor⦄ ⦃a : α⦄, p.match? c = some (a, d) → ∃ b, of b a ∧ Reads c d (words b)
  complete : ∀ ⦃c : Cursor⦄ ⦃b : β⦄ ⦃ws : List Word⦄, Cut c.rest (words b ++ ws) → before ws →
    ∃ a d, p.match? c.skipLayout = some (a, d) ∧ of b a ∧ Cut d.rest ws
  sample : ∃ b text, Prints text (words b)
  resume : ∀ ⦃c d : Cursor⦄ ⦃rule : Rule⦄, p.Tries rule d c.skipLayout → Resumes p words before rule c d

theorem Recognises.sound {α β : Type} {p : Pattern α} {of : β → α → Prop} {words : β → List Word}
    {before : List Word → Prop} (hp : Recognises p of words before) {c d : Cursor} {a : α}
    (h : p.match? c = some (a, d)) : ∃ b, of b a ∧ ∀ ws, Cut d.rest ws → Cut c.rest (words b ++ ws) := by
  obtain ⟨b, hb, hreads⟩ := hp.taken h
  exact ⟨b, hb, fun ws hws => hreads.cut hws⟩

/-- The pattern fails on every text that can be cut into the words. -/
def Fails {α : Type} (p : Pattern α) (ws : List Word) : Prop :=
  ∀ c : Cursor, Cut c.rest ws → p.match? c.skipLayout = none

/-- Any words may follow. -/
def anyWords : List Word → Prop := fun _ => True

/-! ### Failing

A pattern fails where one of its parts does, as soon as the parts before it have taken their words. -/

section Failing
variable {α β γ : Type} {p : Pattern α} {q : Pattern γ} {of : β → α → Prop} {words : β → List Word}
  {before : List Word → Prop} {ws : List Word}

theorem Fails.named {rule : Rule} (h : Fails p ws) : Fails (.named rule p) ws :=
  fun c hcut => h c hcut

theorem Fails.map {f : α → γ} (h : Fails p ws) : Fails (p.map f) ws :=
  fun c hcut => Pattern.match?_map_eq_none_iff.mpr (h c hcut)

theorem Fails.seq (h : Fails p ws) : Fails (p.seq q) ws :=
  fun c hcut => Pattern.match?_seq_eq_none (h c hcut)

theorem Fails.andThen (h : Fails p ws) : Fails (p.andThen q) ws :=
  h.seq.map

theorem Fails.orElse {q : Pattern α} (h₁ : Fails p ws) (h₂ : Fails q ws) : Fails (p.orElse q) ws :=
  fun c hcut => Pattern.match?_orElse_eq_none_iff.mpr ⟨h₁ c hcut, h₂ c hcut⟩

theorem Fails.seq_second {b : β} (hp : Recognises p of words before) (hws : before ws) (hq : Fails q ws) :
    Fails (p.seq q) (words b ++ ws) := by
  intro c hcut
  obtain ⟨a, d, hm, -, hd⟩ := hp.complete hcut hws
  rw [Option.eq_none_iff_forall_ne_some]
  rintro ⟨⟨a', a''⟩, e⟩ h
  obtain ⟨d', h₁, h₂⟩ := Pattern.match?_seq_eq_some_iff.mp h
  rw [hm] at h₁
  obtain ⟨-, rfl⟩ := Prod.mk.inj (Option.some.inj h₁)
  rw [hq d hd] at h₂
  cases h₂

end Failing

/-! ### Going on -/

section Resume
variable {α β : Type} {p : Pattern α} {of : β → α → Prop} {words : β → List Word} {before : List Word → Prop}
  {rule : Rule}

/-- A rule that is found at the front of some phrase can be found at once. -/
theorem resumes_at {c : Cursor} {b : β} {more : List Char} (hprints : Prints more (words b))
    (hfinds : ∀ {c : Cursor} {rest : List Char} {ws : List Word}, Free rest → Cut rest ws → before ws →
      c.rest = ' ' :: (more ++ rest) → p.Finds rule c.skipLayout c.skipLayout) :
    Resumes p words before rule c c.skipLayout := by
  refine ⟨b, c.rest.takeWhile isLayout, more, (List.takeWhile_append_dropWhile).symm, rfl, ?_⟩
  intro rest ws hfree hcut hws
  refine ⟨cut_layout (layout_takeWhile c.rest) (hprints.space hfree hcut), ?_⟩
  rw [Cursor.skipLayout_append (layout_takeWhile c.rest)]
  exact hfinds hfree hcut hws rfl

/-- A rule that is found wherever the pattern matches can be found at once. -/
theorem resumes_here {c : Cursor} (hsample : ∃ b text, Prints text (words b))
    (hcomplete : ∀ {c : Cursor} {b : β} {ws : List Word}, Cut c.rest (words b ++ ws) → before ws →
      (p.match? c.skipLayout).isSome = true)
    (hfinds : ∀ {c : Cursor}, (p.match? c).isSome = true → p.Finds rule c c) :
    Resumes p words before rule c c.skipLayout := by
  obtain ⟨b, more, hprints⟩ := hsample
  refine resumes_at hprints fun {c rest ws} hfree hcut hws hc => ?_
  have hwhole : Cut c.rest (words b ++ ws) := hc ▸ hprints.space hfree hcut
  exact hfinds (hcomplete hwhole hws)

/-- The pattern reads the same way when something else follows that fits, up to the same place. -/
theorem Recognises.replace (hp : Recognises p of words before) {c m : Cursor} {a : α}
    (h : p.match? c.skipLayout = some (a, m)) : ∃ b text, c.rest = text ++ m.rest ∧
      m.offset = c.offset + Text.byteLength text ∧
      ∀ ⦃rest : List Char⦄ ⦃ws : List Word⦄, Fits m.rest rest → Cut rest ws → before ws →
        Cut (text ++ rest) (words b ++ ws) ∧ ∃ a' m',
          p.match? (Cursor.mk c.offset (text ++ rest)).skipLayout = some (a', m') ∧ Cut m'.rest ws ∧
          m'.skipLayout = (Cursor.mk m.offset rest).skipLayout := by
  obtain ⟨b, -, hreads⟩ := hp.taken h
  obtain ⟨text, hrest, hoffset, hcut⟩ := hreads.skip
  refine ⟨b, text, hrest, hoffset, fun rest ws hfits hws hbefore => ?_⟩
  have hwhole := hcut hfits hws
  obtain ⟨a', m', hm', -, hws'⟩ := hp.complete (c := ⟨c.offset, _⟩) hwhole hbefore
  refine ⟨hwhole, a', m', hm', hws', ?_⟩
  refine Cursor.skipLayout_eq_of_cut ((Cursor.reaches_skipLayout _).trans (Pattern.match?_reaches hm')) ?_ hws' hws
  exact ⟨text, rfl, hoffset⟩

end Resume

section Combine
variable {α α' β β' γ : Type} {p : Pattern α} {q : Pattern α'} {of : β → α → Prop} {of' : β' → α' → Prop}
  {words : β → List Word} {words' : β' → List Word} {before before' : List Word → Prop}

/-! ### One after the other -/

theorem Recognises.seq (hp : Recognises p of words before) (hq : Recognises q of' words' before')
    (hbefore : ∀ b' ws, before' ws → before (words' b' ++ ws)) :
    Recognises (p.seq q) (fun (b : β × β') (a : α × α') => of b.1 a.1 ∧ of' b.2 a.2)
      (fun b => words b.1 ++ words' b.2) before' where
  taken := by
    rintro c d ⟨a, a'⟩ h
    obtain ⟨m, h₁, h₂⟩ := Pattern.match?_seq_eq_some_iff.mp h
    obtain ⟨b, hb, hreads⟩ := hp.taken h₁
    obtain ⟨b', hb', hreads'⟩ := hq.taken h₂
    exact ⟨(b, b'), ⟨hb, hb'⟩, hreads.trans hreads'.skip⟩
  complete := by
    rintro c ⟨b, b'⟩ ws h hws
    rw [List.append_assoc] at h
    obtain ⟨a, m, h₁, ha, hm⟩ := hp.complete h (hbefore b' ws hws)
    obtain ⟨a', d, h₂, ha', hd⟩ := hq.complete hm hws
    exact ⟨(a, a'), d, Pattern.match?_seq_eq_some_iff.mpr ⟨m, h₁, h₂⟩, ⟨ha, ha'⟩, hd⟩
  sample := by
    obtain ⟨b, text, h⟩ := hp.sample
    obtain ⟨b', text', h'⟩ := hq.sample
    exact ⟨(b, b'), _, h.append h'.space (Free.space text')⟩
  resume := by
    rintro c d rule (h | ⟨a, m, hm, h⟩)
    -- A rule of the first part: any phrase of the second part may follow.
    · obtain ⟨b, text, more, hrest, hoffset, hall⟩ := hp.resume h
      obtain ⟨b', text', hprints⟩ := hq.sample
      refine ⟨(b, b'), text, more ++ ' ' :: text', hrest, hoffset, fun rest ws hfree hcut hws => ?_⟩
      obtain ⟨hwhole, hfinds⟩ := hall (Free.space _) (hprints.space hfree hcut) (hbefore b' ws hws)
      obtain ⟨a, m, h₁, -, hm⟩ := hp.complete (c := ⟨c.offset, _⟩) hwhole (hbefore b' ws hws)
      obtain ⟨a', e, h₂, -, -⟩ := hq.complete hm hws
      rw [List.append_assoc more, List.cons_append, List.append_assoc (words b)]
      refine ⟨hwhole, ?_, Or.inl hfinds⟩
      rw [Option.isSome_iff_exists]
      exact ⟨_, Pattern.match?_seq_eq_some_iff.mpr ⟨m, h₁, h₂⟩⟩
    -- A rule of the second part: the first part stays as it was read.
    · obtain ⟨b, text, hrest, hoffset, hfirst⟩ := hp.replace hm
      obtain ⟨b', text', more, hrest', hoffset', hall⟩ := hq.resume h
      refine ⟨(b, b'), text ++ text', more, ?_, ?_, fun rest ws hfree hcut hws => ?_⟩
      · rw [List.append_assoc, ← hrest', hrest]
      · rw [hoffset', hoffset, Text.byteLength_append, Nat.add_assoc]
      · obtain ⟨hcut', hfinds⟩ := hall hfree hcut hws
        have hfits : Fits m.rest (text' ++ ' ' :: (more ++ rest)) :=
          hrest' ▸ Fits.append (Or.inr (Free.space _)) text'
        obtain ⟨hwhole, a₁, m₁, h₁, hm₁, hplace⟩ := hfirst hfits hcut' (hbefore b' ws hws)
        obtain ⟨a', e, h₂, -, -⟩ := hq.complete hm₁ hws
        rw [List.append_assoc, List.append_assoc (words b)]
        refine ⟨hwhole, ?_, Or.inr ⟨a₁, m₁, h₁, hplace ▸ hfinds⟩⟩
        rw [Option.isSome_iff_exists]
        exact ⟨_, Pattern.match?_seq_eq_some_iff.mpr ⟨m₁, h₁, h₂⟩⟩

theorem Recognises.map {f : α → α'} {r : β → α' → Prop} (hp : Recognises p of words before)
    (hof : ∀ b a, of b a → r b (f a)) : Recognises (p.map f) r words before where
  taken := by
    intro c d a' h
    obtain ⟨a, hm, rfl⟩ := Pattern.match?_map_eq_some_iff.mp h
    obtain ⟨b, hb, hreads⟩ := hp.taken hm
    exact ⟨b, hof b a hb, hreads⟩
  complete := by
    intro c b ws h hws
    obtain ⟨a, d, hm, ha, hd⟩ := hp.complete h hws
    exact ⟨f a, d, Pattern.match?_map_eq_some_iff.mpr ⟨a, hm, rfl⟩, hof b a ha, hd⟩
  sample := hp.sample
  resume := fun _ _ _ h => hp.resume h

theorem Recognises.cover {of' : β' → α → Prop} (hp : Recognises p of words before) (g : β → β')
    (hg : ∀ b', ∃ b, g b = b') (hwords : ∀ b, words' (g b) = words b) (hof : ∀ b a, of b a → of' (g b) a) :
    Recognises p of' words' before where
  taken := by
    intro c d a h
    obtain ⟨b, hb, hreads⟩ := hp.taken h
    exact ⟨g b, hof b a hb, by rwa [hwords]⟩
  complete := by
    intro c b' ws h hws
    obtain ⟨b, rfl⟩ := hg b'
    rw [hwords] at h
    obtain ⟨a, d, hm, ha, hd⟩ := hp.complete h hws
    exact ⟨a, d, hm, hof b a ha, hd⟩
  sample := by
    obtain ⟨b, text, h⟩ := hp.sample
    exact ⟨g b, text, by rw [hwords]; exact h⟩
  resume := by
    intro c d rule h
    obtain ⟨b, text, more, hall⟩ := hp.resume h
    exact ⟨g b, text, more, by rw [hwords]; exact hall⟩

theorem Recognises.andThen {lead : List Word} (hp : Recognises p (fun _ : Unit => fun _ => True) (fun _ => lead) before)
    (hq : Recognises q of' words' before') (hbefore : ∀ b' ws, before' ws → before (words' b' ++ ws)) :
    Recognises (p.andThen q) of' (fun b' => lead ++ words' b') before' :=
  ((hp.seq hq hbefore).map (r := fun b a => of' b.2 a) fun _ _ h => h.2).cover Prod.snd
    (fun b' => ⟨((), b'), rfl⟩) (fun _ => rfl) (fun _ _ h => h)

theorem Recognises.isSome (hp : Recognises p of words before) {c : Cursor} {b : β} {ws : List Word}
    (h : Cut c.rest (words b ++ ws)) (hws : before ws) : (p.match? c.skipLayout).isSome = true := by
  obtain ⟨a, d, hm, -, -⟩ := hp.complete h hws
  rw [hm]
  rfl

theorem Recognises.named {r : Rule} (hp : Recognises p of words before) :
    Recognises (.named r p) of words before where
  taken := hp.taken
  complete := hp.complete
  sample := hp.sample
  resume := by
    rintro c d rule (⟨rfl, rfl⟩ | h)
    · exact resumes_here (p := .named rule p) hp.sample hp.isSome fun hm => Or.inl ⟨⟨rfl, rfl⟩, hm⟩
    · obtain ⟨b, text, more, hrest, hoffset, hall⟩ := hp.resume h
      exact ⟨b, text, more, hrest, hoffset, fun rest ws hfree hcut hws =>
        (hall hfree hcut hws).imp_right Or.inr⟩

theorem Recognises.mono (hp : Recognises p of words before) (h : ∀ ws, before' ws → before ws) :
    Recognises p of words before' where
  taken := hp.taken
  complete := fun _ _ _ hcut hws => hp.complete hcut (h _ hws)
  sample := hp.sample
  resume := by
    intro c d rule ht
    obtain ⟨b, text, more, hrest, hoffset, hall⟩ := hp.resume ht
    exact ⟨b, text, more, hrest, hoffset, fun rest ws hfree hcut hws => hall hfree hcut (h ws hws)⟩

/-! ### Choices -/

/-- The second alternative counts only where the first one fails. -/
theorem Recognises.orElse {q : Pattern α} {of' : β' → α → Prop} (hp : Recognises p of words before)
    (hq : Recognises q of' words' before) (hfails : ∀ b' ws, Fails p (words' b' ++ ws)) :
    Recognises (p.orElse q) (Sum.elim of of') (Sum.elim words words') before where
  taken := by
    intro c d a h
    rcases Pattern.match?_orElse_eq_some_iff.mp h with h | ⟨-, h⟩
    · obtain ⟨b, hb, hreads⟩ := hp.taken h
      exact ⟨.inl b, hb, hreads⟩
    · obtain ⟨b', hb', hreads⟩ := hq.taken h
      exact ⟨.inr b', hb', hreads⟩
  complete := by
    rintro c (b | b') ws h hws
    · obtain ⟨a, d, hm, ha, hd⟩ := hp.complete h hws
      exact ⟨a, d, Pattern.match?_orElse_eq_some_iff.mpr (Or.inl hm), ha, hd⟩
    · obtain ⟨a, d, hm, ha, hd⟩ := hq.complete h hws
      exact ⟨a, d, Pattern.match?_orElse_eq_some_iff.mpr (Or.inr ⟨hfails b' ws c h, hm⟩), ha, hd⟩
  sample := by
    obtain ⟨b, text, h⟩ := hp.sample
    exact ⟨.inl b, text, h⟩
  resume := by
    rintro c d rule (h | ⟨-, h⟩)
    · obtain ⟨b, text, more, hrest, hoffset, hall⟩ := hp.resume h
      exact ⟨.inl b, text, more, hrest, hoffset, fun rest ws hfree hcut hws =>
        (hall hfree hcut hws).imp_right Or.inl⟩
    · obtain ⟨b', text, more, hrest, hoffset, hall⟩ := hq.resume h
      refine ⟨.inr b', text, more, hrest, hoffset, fun rest ws hfree hcut hws => ?_⟩
      obtain ⟨hwhole, hfinds⟩ := hall hfree hcut hws
      exact ⟨hwhole, Or.inr ⟨hfails b' ws ⟨_, _⟩ hwhole, hfinds⟩⟩

/-- A phrase or nothing, where the pattern fails on what follows. -/
theorem Recognises.optional (hp : Recognises p of words before) :
    Recognises p.optional (Option.Rel of) (fun o => o.elim [] words) (fun ws => before ws ∧ Fails p ws) where
  taken := by
    intro c d o h
    rcases Pattern.match?_optional_eq_some_iff.mp h with ⟨a, rfl, hm⟩ | ⟨rfl, rfl, -⟩
    · obtain ⟨b, hb, hreads⟩ := hp.taken hm
      exact ⟨some b, .some hb, hreads⟩
    · exact ⟨none, .none, .refl _⟩
  complete := by
    rintro c (_ | b) ws h ⟨hws, hfails⟩
    -- Without a phrase the optional part takes nothing, only if the pattern fails here.
    · exact ⟨none, c.skipLayout, Pattern.match?_optional_eq_some_iff.mpr (Or.inr ⟨rfl, rfl, hfails c h⟩),
        .none, cut_skip.mpr h⟩
    · obtain ⟨a, d, hm, ha, hd⟩ := hp.complete h hws
      exact ⟨some a, d, Pattern.match?_optional_eq_some_iff.mpr (Or.inl ⟨a, rfl, hm⟩), .some ha, hd⟩
  sample := ⟨none, [], prints_nil⟩
  resume := by
    intro c d rule h
    obtain ⟨b, text, more, hrest, hoffset, hall⟩ := hp.resume h
    exact ⟨some b, text, more, hrest, hoffset, fun rest ws hfree hcut hws => hall hfree hcut hws.1⟩

/-! ### Repetitions -/

theorem Recognises.repeats_taken (hp : Recognises p of words before) {c d : Cursor} {items : List α}
    (h : Pattern.Repeats p c items d) :
    ∃ bs, List.Forall₂ of bs items ∧ Reads c d (bs.flatMap words) := by
  induction h with
  | stop _ => exact ⟨[], .nil, .refl _⟩
  | more hm _ ih =>
    obtain ⟨b, hb, hreads⟩ := hp.taken hm
    obtain ⟨bs, hbs, hreads'⟩ := ih
    exact ⟨b :: bs, .cons hb hbs, hreads.skip.trans hreads'⟩

theorem Recognises.repeats_complete (hp : Recognises p of words before) {ws : List Word}
    (hbefore : ∀ bs : List β, before (bs.flatMap words ++ ws)) (hfails : Fails p ws) (bs : List β)
    (c : Cursor) (h : Cut c.rest (bs.flatMap words ++ ws)) :
    ∃ items d, Pattern.Repeats p c items d ∧ List.Forall₂ of bs items ∧ Cut d.rest ws := by
  induction bs generalizing c with
  | nil => exact ⟨[], c, .stop (hfails c h), .nil, h⟩
  | cons b bs ih =>
    rw [List.flatMap_cons, List.append_assoc] at h
    obtain ⟨a, d, hm, ha, hd⟩ := hp.complete h (hbefore bs)
    obtain ⟨items, e, hr, hitems, he⟩ := ih d hd
    exact ⟨a :: items, e, .more hm hr, .cons ha hitems, he⟩

/-- A rule that is tried in a later repetition is found behind the phrases before it. -/
theorem Recognises.repeats_resume (hp : Recognises p of words before) (hmore : ∀ b ws, before (words b ++ ws))
    {c m d : Cursor} {rule : Rule} (h : Pattern.Passes p c m) (ht : p.Tries rule d m.skipLayout) :
    ∃ b bs text more, c.rest = text ++ d.rest ∧ d.offset = c.offset + Text.byteLength text ∧
      ∀ ⦃rest : List Char⦄ ⦃ws : List Word⦄, Free rest → Cut rest ws → before ws →
        Cut (text ++ ' ' :: (more ++ rest)) ((b :: bs).flatMap words ++ ws) ∧
        p.many.Finds rule (Cursor.mk d.offset (' ' :: (more ++ rest))).skipLayout
          (Cursor.mk c.offset (text ++ ' ' :: (more ++ rest))).skipLayout := by
  induction h with
  | refl c =>
    obtain ⟨b, text, more, hrest, hoffset, hall⟩ := hp.resume ht
    refine ⟨b, [], text, more, hrest, hoffset, fun rest ws hfree hcut hws => ?_⟩
    rw [List.flatMap_singleton]
    exact (hall hfree hcut hws).imp_right fun hfinds =>
      ⟨_, .refl _, by rwa [Cursor.skipLayout_skipLayout]⟩
  | @more c m e a hm _ ih =>
    obtain ⟨b, text, hrest, hoffset, hfirst⟩ := hp.replace hm
    obtain ⟨b', bs, text', more, hrest', hoffset', hall⟩ := ih ht
    refine ⟨b, b' :: bs, text ++ text', more, ?_, ?_, fun rest ws hfree hcut hws => ?_⟩
    · rw [List.append_assoc, ← hrest', hrest]
    · rw [hoffset', hoffset, Text.byteLength_append, Nat.add_assoc]
    · obtain ⟨hcut', k, hpass, hfinds⟩ := hall hfree hcut hws
      have hfits : Fits m.rest (text' ++ ' ' :: (more ++ rest)) :=
        hrest' ▸ Fits.append (Or.inr (Free.space _)) text'
      have hnext : before ((b' :: bs).flatMap words ++ ws) := by
        rw [List.flatMap_cons, List.append_assoc]
        exact hmore b' _
      obtain ⟨hwhole, a₁, m₁, h₁, -, hplace⟩ := hfirst hfits hcut' hnext
      rw [List.append_assoc, List.flatMap_cons, List.append_assoc (words b)]
      refine ⟨hwhole, ?_⟩
      obtain ⟨k', hpass', hk'⟩ := hpass.skipLayout (hplace.trans (Cursor.skipLayout_skipLayout _).symm)
      refine ⟨k', .more (by rwa [Cursor.skipLayout_skipLayout]) hpass', ?_⟩
      rwa [hk']

/-- Any number of phrases, where each may stand before the next and the pattern fails behind the last. -/
theorem Recognises.many (hp : Recognises p of words before) (htakes : p.Takes)
    (hmore : ∀ b ws, before (words b ++ ws)) :
    Recognises p.many (List.Forall₂ of) (fun bs => bs.flatMap words) (fun ws => before ws ∧ Fails p ws) where
  taken := by
    intro c d items h
    exact hp.repeats_taken ((Pattern.match?_many_eq_some_iff htakes).mp h)
  complete := by
    rintro c bs ws h ⟨hws, hfails⟩
    have hbefore : ∀ bs : List β, before (bs.flatMap words ++ ws) := by
      intro bs
      cases bs with
      | nil => exact hws
      | cons b bs =>
        rw [List.flatMap_cons, List.append_assoc]
        exact hmore b _
    obtain ⟨items, d, hr, hitems, hd⟩ := hp.repeats_complete hbefore hfails bs c.skipLayout (cut_skip.mpr h)
    exact ⟨items, d, (Pattern.match?_many_eq_some_iff htakes).mpr hr, hitems, hd⟩
  sample := ⟨[], [], prints_nil⟩
  resume := by
    rintro c d rule ⟨m, hpass, ht⟩
    obtain ⟨k, hpass', hk⟩ := hpass.skipLayout (Cursor.skipLayout_skipLayout c).symm
    obtain ⟨b, bs, text, more, hrest, hoffset, hall⟩ := hp.repeats_resume hmore hpass' (hk ▸ ht)
    exact ⟨b :: bs, text, more, hrest, hoffset, fun rest ws hfree hcut hws => hall hfree hcut hws.1⟩

end Combine

/-! ### Words -/

theorem resumes_word {β : Type} {l : Lexeme} {words : β → List Word} {before : List Word → Prop} {c d : Cursor}
    {rule : Rule} (hsample : ∃ b text, Prints text (words b))
    (hcomplete : ∀ {c : Cursor} {b : β} {ws : List Word}, Cut c.rest (words b ++ ws) →
      ∃ t d, (Pattern.word l).match? c.skipLayout = some (t, d))
    (h : (Pattern.word l).Tries rule d c.skipLayout) : Resumes (.word l) words before rule c d := by
  obtain ⟨rfl, rfl⟩ := h
  refine resumes_here hsample (fun hcut _ => ?_) fun hm => ⟨⟨rfl, rfl⟩, hm⟩
  obtain ⟨t, d, hm⟩ := hcomplete hcut
  rw [hm]
  rfl

theorem recognises_keyword (k : Keyword) :
    Recognises (keyword k) (fun _ : Unit => fun _ => True) (fun _ => [.keyword k]) anyWords where
  taken := fun _ _ _ h => by
    obtain ⟨text, hscan, -, hoffset⟩ := Cursor.word?_eq_some_iff.mp h
    obtain ⟨hc, htext, hend⟩ := (scanWord_eq_some_iff (isPlain_keyword k)).mp hscan
    exact ⟨(), trivial, reads_word (w := .keyword k) hc hoffset htext hend⟩
  complete := fun _ _ _ h _ => by
    obtain ⟨t, d, hm, hd⟩ := keyword_complete h
    exact ⟨t, d, hm, trivial, hd⟩
  sample := ⟨(), k.word.toList, prints_word (w := .keyword k) (isPlain_keyword k).lower⟩
  resume := fun _ _ _ h => resumes_word ⟨(), k.word.toList, prints_word (w := .keyword k) (isPlain_keyword k).lower⟩
    (fun hcut => (keyword_complete hcut).imp fun _ h => h.imp fun _ h => h.1) h

theorem fails_keyword {k : Keyword} {ws : List Word} (h : ws.head? ≠ some (.keyword k)) :
    Fails (keyword k) ws :=
  fun _ hcut => keyword_fails hcut h

theorem word_complete {l : Lexeme} {w : List Char → Word} (hw : ∀ n text, (w n).SpelledAs text → text = n)
    (hscan : ∀ {cs text rest}, l.scan cs = some (text, rest) ↔
      cs = text ++ rest ∧ (w text).SpelledAs text ∧ (w text).EndsBefore rest) {c : Cursor} {n : List Char}
    {ws : List Word} (h : Cut c.rest (w n :: ws)) :
    ∃ t d, (Pattern.word l).match? c.skipLayout = some (t, d) ∧ t.text.toList = n ∧ Cut d.rest ws := by
  obtain ⟨text, rest, hskip, hs, he, hrest⟩ := cut_cons_iff.mp h
  obtain rfl := hw n text hs
  obtain ⟨t, d, hm, ht, rfl⟩ := word?_of_scan (c := c.skipLayout) hskip (hscan.mpr ⟨rfl, hs, he⟩)
  exact ⟨t, d, hm, ht, hrest⟩

/-- A scanner that takes the words of one kind, as far as each of them goes, recognises them. -/
theorem recognises_word {l : Lexeme} {w : List Char → Word} (hw : ∀ n text, (w n).SpelledAs text → text = n)
    (hsample : ∃ n, (w n).SpelledAs n)
    (hscan : ∀ {cs text rest}, l.scan cs = some (text, rest) ↔
      cs = text ++ rest ∧ (w text).SpelledAs text ∧ (w text).EndsBefore rest) :
    Recognises (.word l) (fun n t => t.text.toList = n) (fun n => [w n]) anyWords where
  taken := by
    intro c d t h
    obtain ⟨text, hs, rfl, hoffset⟩ := Cursor.word?_eq_some_iff.mp h
    obtain ⟨hc, htext, hend⟩ := hscan.mp hs
    exact ⟨text, String.toList_ofList, reads_word hc hoffset htext hend⟩
  complete := fun _ _ _ h _ => word_complete hw hscan h
  sample := hsample.imp fun n hn => ⟨n, prints_word hn⟩
  resume := fun _ _ _ h => resumes_word (hsample.imp fun n hn => ⟨n, prints_word hn⟩)
    (fun hcut => (word_complete hw hscan hcut).imp fun _ h => h.imp fun _ h => h.1) h

theorem recognises_name :
    Recognises name (fun n t => t.text.toList = n) (fun n => [.name n]) anyWords :=
  recognises_word (fun _ _ h => h.2) ⟨['a'], by decide, rfl⟩ fun {cs text rest} =>
    scanName_eq_some_iff.trans (by simp only [Word.SpelledAs, Word.EndsBefore, and_true])

theorem recognises_count :
    Recognises (.word .count) (fun ds t => t.text.toList = ds) (fun ds => [.count ds]) anyWords :=
  recognises_word (fun _ _ h => h.2) ⟨['0'], by decide, rfl⟩ fun {cs text rest} =>
    scanCount_eq_some_iff.trans (by simp only [Word.SpelledAs, Word.EndsBefore, and_true])

theorem recognises_symbol {s : String} {w : Word} (hw : ∀ text, w.SpelledAs text ↔ text = s.toList)
    (he : ∀ rest, w.EndsBefore rest) :
    Recognises (.symbol s) (fun _ : Unit => fun _ => True) (fun _ => [w]) anyWords where
  taken := fun _ _ _ h => by
    obtain ⟨-, hc, hoffset⟩ := match?_symbol_eq_some_iff.mp h
    exact ⟨(), trivial, reads_word hc hoffset ((hw _).mpr rfl) (he _)⟩
  complete := fun _ _ _ h _ => by
    obtain ⟨t, d, hm, hd⟩ := symbol_complete (fun text => (hw text).mp) h
    exact ⟨t, d, hm, trivial, hd⟩
  sample := ⟨(), s.toList, prints_word ((hw _).mpr rfl)⟩
  resume := fun _ _ _ h => h.elim

end EntityQuery.Language
