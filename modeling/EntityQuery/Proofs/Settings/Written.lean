import EntityQuery.Proofs.Settings.Layers
import EntityQuery.Settings.Document.Writer

/-! # Settings that are written are read back

Settings are written as a document of one section, so reading it gives the settings back (`toDocument_read_back`).
Only a time that does not fit 64 bits with a sign cannot be written. -/

namespace EntityQuery.Settings
open EntityQuery (Settings)
open EntityQuery.Language

theorem isWord_boolean (b : Bool) : Document.IsWord (writeBoolean b) (.boolean b) := by
  cases b <;> exact ⟨by decide, List.all_eq_true.mp rfl, rfl⟩

/-- Settings are written as one section. -/
theorem write_eq (s : CacheSettings) : s.write = Document.textOf (Document.sectionLines "cache"
    [("enabled", writeBoolean s.enabled, .boolean s.enabled),
      ("ttl_secs", Decimal.writeNat s.ttlSeconds.toNat, .integer s.ttlSeconds.toNat)]) := by
  have hfront : "[cache]\nenabled = ".toList =
      Document.headerText "cache" ++ '\n' :: ("enabled".toList ++ [' ', '=', ' ']) := rfl
  have hmiddle : "\nttl_secs = ".toList = '\n' :: ("ttl_secs".toList ++ [' ', '=', ' ']) := rfl
  refine (congrArg₂ (fun front middle => front ++ writeBoolean s.enabled ++ middle ++
    Decimal.writeNat s.ttlSeconds.toNat ++ ['\n']) hfront hmiddle).trans ?_
  simp only [Document.sectionLines, Document.assignmentText, Document.textOf_cons, List.map_cons, List.map_nil,
    List.append_assoc, List.cons_append, List.nil_append]
  rfl

/-- The document of settings is read as the tree of the settings. -/
theorem read_write {s : CacheSettings} (h : s.ttlSeconds.toNat ≤ Int64.maxValue.toInt) :
    Document.read (String.ofList s.write) = some [("cache", .table [("enabled", .boolean s.enabled),
      ("ttl_secs", .integer s.ttlSeconds.toNat)])] := by
  rw [write_eq]
  exact read_cacheSection (isWord_boolean _) (Document.isWord_integer h)

/-- Settings that are written are loaded again where no variable sets anything. -/
theorem load_write {s : Settings} (h : s.cache.ttlSeconds.toNat ≤ Int64.maxValue.toInt)
    {environment : List (String × String)} (hfree : ∀ v ∈ environment, Variable.path? v.1 = none) :
    load (some (String.ofList s.cache.write)) environment = .ok s := by
  have hdocument : documentTree (some (String.ofList s.cache.write)) = .ok (.table [("cache", .table
      [("enabled", .boolean s.cache.enabled), ("ttl_secs", .integer s.cache.ttlSeconds.toNat)])]) := by
    rw [documentTree, read_write h]
  have hcache : ∀ d, documentTree (some (String.ofList s.cache.write)) = .ok d → CacheIsTable d := by
    intro d hd n hn
    obtain rfl := Except.ok.inj (hdocument.symm.trans hd)
    exact ⟨_, (Option.some.inj hn).symm⟩
  have hset : ∀ path, Variable.setting? environment path = none := fun path =>
    Variable.setting?_eq_none fun v hv => by rw [hfree v hv]; exact (Option.some_ne_none path).symm
  have hcount : ∀ d path byDefault, counting environment d path byDefault = (d.at? path).getD byDefault :=
    fun d path byDefault => by rw [counting, hset, Option.none_or]
  rw [load_eq hcache (Variable.setOnce_of_unset hfree) (Variable.setOnce_of_unset hfree), hdocument, Except.bind,
    hcount, hcount]
  exact map_eq_ok_iff.mpr ⟨s.cache, cacheOfParts_eq_ok_iff.mpr ⟨rfl, rfl⟩, rfl⟩

/-- Settings can be written when the time fits 64 bits with a sign, and what is written is read back as the same
settings, by itself or as the document of which settings are loaded. -/
theorem toDocument_read_back (s : Settings) :
    ((∃ text, s.toDocument = .ok text) ↔ s.cache.ttlSeconds.toNat ≤ 2 ^ 63 - 1) ∧
    (∀ e, s.toDocument = .error e ↔ e = .unreadable ∧ 2 ^ 63 - 1 < s.cache.ttlSeconds.toNat) ∧
    ∀ text, s.toDocument = .ok text → ofDocument text = .ok s ∧
      (∀ environment, (∀ v ∈ environment, Variable.path? v.1 = none) → load (some text) environment = .ok s) ∧
      ∀ s', ofDocument text = .ok s' → s'.cache.effectiveTtl = s.cache.effectiveTtl ∧ s'.validate = s.validate := by
  have hmax : (s.cache.ttlSeconds.toNat : Int) ≤ Int64.maxValue.toInt ↔ s.cache.ttlSeconds.toNat ≤ 2 ^ 63 - 1 := by
    rw [show Int64.maxValue.toInt = 2 ^ 63 - 1 from rfl]
    omega
  rw [Settings.toDocument]
  by_cases h : (s.cache.ttlSeconds.toNat : Int) ≤ Int64.maxValue.toInt
  · rw [if_pos h]
    have hread : ofDocument (String.ofList s.cache.write) = .ok s := by
      rw [ofDocument_eq_load]
      exact load_write h fun _ hv => by cases hv
    refine ⟨⟨fun _ => hmax.mp h, fun _ => ⟨_, rfl⟩⟩, fun e => ⟨?_, fun he => ?_⟩, ?_⟩
    · intro he
      cases he
    · exact absurd (hmax.mp h) (Nat.not_le.mpr he.2)
    · intro text htext
      obtain rfl := Except.ok.inj htext
      refine ⟨hread, fun environment hfree => load_write h hfree, fun s' hs' => ?_⟩
      obtain rfl := Except.ok.inj (hread.symm.trans hs')
      exact ⟨rfl, rfl⟩
  · rw [if_neg h]
    have hlt : 2 ^ 63 - 1 < s.cache.ttlSeconds.toNat := Nat.not_le.mp (mt hmax.mpr h)
    refine ⟨⟨?_, fun hle => absurd hle (Nat.not_le.mpr hlt)⟩, fun e => ⟨fun he => ?_, ?_⟩, ?_⟩
    · rintro ⟨text, htext⟩
      cases htext
    · exact ⟨(Except.error.inj he).symm, hlt⟩
    · rintro ⟨rfl, -⟩
      rfl
    · intro text htext
      cases htext

/-- The greatest time that can be written, with the cache switched off. -/
theorem toDocument_read_back_greatest :
    load (some "[cache]\nenabled = false\nttl_secs = 9223372036854775807\n") [("HOME", "/")] =
      .ok { cache := { enabled := false, ttlSeconds := 9223372036854775807 } } := by
  have hwritten : (Settings.mk { enabled := false, ttlSeconds := 9223372036854775807 }).toDocument =
      .ok "[cache]\nenabled = false\nttl_secs = 9223372036854775807\n" := by decide
  exact ((toDocument_read_back _).2.2 _ hwritten).2.1 _ (by decide)

end EntityQuery.Settings
