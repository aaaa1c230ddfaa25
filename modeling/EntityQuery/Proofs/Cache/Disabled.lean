import Mathlib.Data.List.DropRight
import EntityQuery.Proofs.Cache.Transparent

/-! # A cache that keeps nothing

Where the time to live is zero nothing is stored, so a compiler with such a cache is the compiler itself and a
counter of the texts that it was given since it was cleared. Settings ask for it by switching the cache off or by a
time of zero. A text that is absent is refused before the cache is asked, whatever the time to live. -/

namespace EntityQuery.Cache
variable {ε α : Type} {c : Cache α}

/-- A cache without a time to live, after some computations. -/
def idle (computations : Nat) : Cache α :=
  { ttl := 0, entries := [], stats := { hits := 0, misses := .ofNat computations, expirations := 0 } }

theorem keep_of_ttl (h : c.ttl = 0) (key : String) (computed : Computed ε α) : c.keep key computed = c := by
  rw [keep]
  split
  · rfl
  · rw [if_pos h]

theorem step_get_idle (n : Nat) (key : String) (now : Instant) (computed : Computed ε α) :
    ((idle n).step (.get key now computed)).2 = idle (n + 1) := by
  have hnone : ∀ e, (idle n : Cache α).find? key = some e → e.isFresh now 0 = false := fun _ he => nomatch he
  rw [step_get_stale hnone]
  show (countMiss (idle n) false).keep key computed = _
  rw [keep_of_ttl rfl]
  simp [idle, countMiss]

end EntityQuery.Cache

namespace EntityQuery.CachedCompiler
variable {α : Type}

/-! ### Texts that were given -/

@[simp] def Request.isClear : Request → Bool
  | .clear => true
  | _ => false

@[simp] def Request.givesText : Request → Bool
  | .compile (some _) _ _ => true
  | _ => false

/-- How many texts were given since the last request to clear. -/
def textsGiven (requests : List Request) : Nat :=
  (requests.rtakeWhile fun r => !r.isClear).countP Request.givesText

theorem textsGiven_snoc (requests : List Request) (r : Request) :
    textsGiven (requests ++ [r]) = if r.isClear then 0 else textsGiven requests + if r.givesText then 1 else 0 := by
  rw [textsGiven, List.rtakeWhile_concat]
  cases r.isClear with
  | true => rfl
  | false =>
    show List.countP _ (_ ++ [r]) = _
    rw [List.countP_append, List.countP_singleton]
    rfl

/-! ### Runs -/

theorem run_snoc (c : CachedCompiler α) (requests : List Request) (r : Request) :
    (c.run (requests ++ [r])).2 = ((c.run requests).2.step r).2 := by
  induction requests generalizing c with
  | nil => rfl
  | cons r' requests ih => exact ih (c.step r').2

theorem step_idle {c : CachedCompiler α} {n : Nat} (h : c.cache = .idle n) (r : Request) :
    (c.step r).2.cache = .idle (if r.isClear then 0 else n + if r.givesText then 1 else 0) := by
  obtain ⟨compiler, cache⟩ := c
  obtain rfl : cache = .idle n := h
  cases r with
  | compile input now finished =>
    cases input with
    | none => rfl
    | some text => exact Cache.step_get_idle n text now { outcome := compiler text, finished }
  | purge now => rfl
  | clear => rfl

theorem run_idle (compiler : String → Except CompileError α) (requests : List Request) :
    ((ofCompiler compiler 0).run requests).2.cache = .idle (textsGiven requests) := by
  induction requests using List.reverseRecOn with
  | nil => rfl
  | append_singleton requests r ih => rw [run_snoc, textsGiven_snoc, step_idle ih]

theorem effectiveTtl_eq_zero_iff {s : CacheSettings} :
    s.effectiveTtl = 0 ↔ s.enabled = false ∨ s.ttlSeconds = 0 := by
  rw [CacheSettings.effectiveTtl]
  cases s.enabled with
  | true =>
    have hscale : s.ttlSeconds.toNat * 1000000000 = 0 ↔ s.ttlSeconds = 0 := by
      rw [← UInt64.toNat_inj, UInt64.toNat_zero]
      omega
    rw [if_pos rfl, hscale]
    simp
  | false => simp

/-- The compiler keeps nothing, and has counted the texts that it was given. -/
structure KeepsNothing (c : CachedCompiler α) (texts : Nat) : Prop where
  size : c.cache.size = 0
  hits : c.cache.stats.hits = 0
  expirations : c.cache.stats.expirations = 0
  purged : ∀ now, (c.purge now).1 = 0
  misses : c.cache.stats.misses = .ofNat texts

theorem keepsNothing_of_idle {c : CachedCompiler α} {n : Nat} (h : c.cache = .idle n) : c.KeepsNothing n := by
  obtain ⟨compiler, cache⟩ := c
  obtain rfl : cache = .idle n := h
  exact ⟨rfl, rfl, rfl, fun _ => rfl, rfl⟩

theorem keepsNothing_run (compiler : String → Except CompileError α) (requests : List Request) :
    ((ofCompiler compiler 0).run requests).2.KeepsNothing (textsGiven requests) :=
  keepsNothing_of_idle (run_idle compiler requests)

/-- With no time to live, or with settings that give none, a compiler with a cache keeps nothing at any point of any
    run, answers as the compiler does, and counts the texts. An absent text changes nothing, for any time to live. -/
theorem run_keepsNothing :
    (∀ {α : Type} (compiler : String → Except CompileError α) (requests : List Request),
      ((ofCompiler compiler 0).run requests).2.KeepsNothing (textsGiven requests) ∧
        ((ofCompiler compiler 0).run requests).1 = requests.map (·.result? compiler)) ∧
    (∀ (s : Settings) (requests : List Request), s.cache.enabled = false ∨ s.cache.ttlSeconds = 0 →
      ((ofSettings s).run requests).2.KeepsNothing (textsGiven requests) ∧
        ((ofSettings s).run requests).1 = requests.map (·.result? EntityQuery.compile)) ∧
    ∀ {α : Type} (compiler : String → Except CompileError α) (ttl : Nat) (requests : List Request)
      (now finished : Instant), ((ofCompiler compiler ttl).run requests).2.compile none now finished =
        (.error .absentText, ((ofCompiler compiler ttl).run requests).2) := by
  refine ⟨fun compiler requests => ⟨keepsNothing_run compiler requests, run_ofCompiler compiler 0 requests⟩,
    fun s requests h => ?_, fun _ _ _ _ _ => rfl⟩
  rw [ofSettings, effectiveTtl_eq_zero_iff.mpr h]
  exact ⟨keepsNothing_run EntityQuery.compile requests, run_ofCompiler EntityQuery.compile 0 requests⟩

/-- Of a cache that is switched off, on a clock that is set back: a text that compiles is compiled twice, an absent one
    is not counted, and what came before the clearing is forgotten. -/
theorem run_keepsNothing_off :
    let s : Settings := { cache := { enabled := false, ttlSeconds := 300 } }
    let requests : List Request := [.compile (some "DELETE FROM t") 9 9, .clear, .compile (some "DELETE FROM t") 5 4,
      .compile none 3 3, .compile (some "DELETE FROM t") 2 1, .purge 0]
    ((ofSettings s).run requests).2.KeepsNothing 2 := by
  intro s requests
  exact (run_keepsNothing.2.1 s requests (Or.inl rfl)).1

end EntityQuery.CachedCompiler
