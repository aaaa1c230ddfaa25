import Mathlib
import EntityQuery.Proofs.Cache.Failed

/-! # The balance of a cache

What a cache has counted, and how many entries it holds, can be read off the operations since it was last cleared.
Each `get` is a hit or a miss; a miss is counted for each computation, and an expiration for each entry found too
old. An entry is added by a `get` that computes for a key without one, and is taken away by an invalidation or a
purge; a `get` that replaces an entry changes nothing here. What one operation changes (`Turn.Changes`) is added up over
a run, whatever the clock shows. -/

namespace EntityQuery.Cache
variable {ε α : Type}

/-! ### Operations that were carried out -/

/-- An operation, the cache that it met, and what it answered. -/
structure Turn (ε α : Type) where
  cache : Cache α
  op : Op ε α
  reply : Reply ε α

def turn (c : Cache α) (op : Op ε α) : Turn ε α :=
  { cache := c, op, reply := (c.step op).1 }

def turns (c : Cache α) : List (Op ε α) → List (Turn ε α)
  | [] => []
  | op :: ops => c.turn op :: (c.step op).2.turns ops

namespace Turn

@[simp] def isGet (t : Turn ε α) : Bool :=
  match t.op with
  | .get .. => true
  | _ => false

@[simp] def isClear (t : Turn ε α) : Bool :=
  match t.op with
  | .clear => true
  | _ => false

/-- An entry gave the answer. -/
@[simp] def hits (t : Turn ε α) : Bool :=
  match t.reply with
  | .got _ called => !called
  | _ => false

@[simp] def computes (t : Turn ε α) : Bool :=
  match t.reply with
  | .got _ called => called
  | _ => false

/-- The entry that was found was too old at the first reading of the clock. -/
@[simp] def findsStale (t : Turn ε α) : Bool :=
  match t.op with
  | .get key now _ => (t.cache.find? key).any fun e => t.cache.ttl ≤ e.age now
  | _ => false

/-- A value was computed that lives for a time, for a key without an entry. -/
@[simp] def adds (t : Turn ε α) : Bool :=
  match t.op, t.reply with
  | .get key _ _, .got (.ok _) true => t.cache.ttl != 0 && (t.cache.find? key).isNone
  | _, _ => false

@[simp] def invalidates (t : Turn ε α) : Bool :=
  match t.reply with
  | .invalidated present => present
  | _ => false

@[simp] def purged (t : Turn ε α) : Nat :=
  match t.reply with
  | .purged count => count
  | _ => 0

end Turn

/-- What was carried out on an empty cache since it was last cleared. -/
def sinceCleared (ttl : Nat) (ops : List (Op ε α)) : List (Turn ε α) :=
  ((empty ttl).turns ops).rtakeWhile fun t => !t.isClear

theorem turns_append (c : Cache α) (ops ops' : List (Op ε α)) :
    c.turns (ops ++ ops') = c.turns ops ++ (c.run ops).2.turns ops' := by
  induction ops generalizing c with
  | nil => rfl
  | cons op ops ih => simp [turns, run, ih]

theorem sinceCleared_snoc (ttl : Nat) (ops : List (Op ε α)) (op : Op ε α) :
    sinceCleared ttl (ops ++ [op]) =
      if ((after ttl ops).turn op).isClear then [] else sinceCleared ttl ops ++ [(after ttl ops).turn op] := by
  rw [sinceCleared, turns_append]
  show List.rtakeWhile _ (_ ++ [(after ttl ops).turn op]) = _
  rw [List.rtakeWhile_concat]
  cases ((after ttl ops).turn op).isClear <;> rfl

/-! ### How many entries there are -/

section Size
variable {c : Cache α} {key : String} {now : Instant}

theorem without_of_notMem {entries : List (String × Entry α)} (h : key ∉ entries.map Prod.fst) :
    without key entries = entries := by
  rw [without, List.filter_eq_self]
  intro x hx
  rw [bne_iff_ne]
  rintro rfl
  exact h (List.mem_map.mpr ⟨x, hx, rfl⟩)

/-- Without the entry of a key there is one entry less, if the key has one. -/
theorem length_without (h : c.Distinct) (key : String) :
    (without key c.entries).length + (c.find? key).toList.length = c.size := by
  cases he : c.find? key with
  | none =>
    rw [without_of_notMem]
    · rfl
    · intro hmem
      obtain ⟨x, hx, rfl⟩ := List.mem_map.mp hmem
      simpa using List.lookup_eq_none_iff.mp he x hx
  | some e =>
    obtain ⟨before, rest, hentries, -⟩ := List.lookup_eq_some_iff.mp he
    rw [Distinct, hentries, List.map_append, List.map_cons, List.nodup_middle, List.nodup_cons, List.mem_append,
      not_or] at h
    obtain ⟨⟨hbefore, hrest⟩, -⟩ := h
    have hwithout : without key c.entries = before ++ rest := by
      rw [hentries, without, List.filter_append, List.filter_cons_of_neg (by simp), ← without, ← without,
        without_of_notMem hbefore, without_of_notMem hrest]
    rw [hwithout, size, hentries]
    simp
    omega

theorem size_store (h : c.Distinct) (key : String) (value : α) (now : Instant) :
    (c.store key value now).size = c.size + if (c.find? key).isNone then 1 else 0 := by
  have hlength := length_without h key
  rw [size, store, List.length_cons]
  cases he : c.find? key <;> rw [he] at hlength <;> simp at hlength ⊢ <;> omega

theorem size_invalidate (h : c.Distinct) (key : String) :
    (c.invalidate key).2.size + (if (c.invalidate key).1 then 1 else 0) = c.size := by
  have hlength := length_without h key
  rw [← hlength, invalidate]
  cases c.find? key <;> simp [size]

theorem size_purge (c : Cache α) (now : Instant) : (c.purge now).2.size + (c.purge now).1 = c.size :=
  Nat.add_sub_of_le (List.length_filter_le ..)

end Size

/-! ### What a turn changes -/

/-- What an operation other than clearing does to the counts and to the number of entries. -/
structure Turn.Changes (t : Turn ε α) (c : Cache α) : Prop where
  hits : c.stats.hits = t.cache.stats.hits + if t.hits then 1 else 0
  misses : c.stats.misses = t.cache.stats.misses + if t.computes then 1 else 0
  expirations : c.stats.expirations = t.cache.stats.expirations + if t.findsStale then 1 else 0
  size : c.size + (if t.invalidates then 1 else 0) + t.purged = t.cache.size + if t.adds then 1 else 0
  asked : ((if t.hits then 1 else 0) + if t.computes then 1 else 0) = if t.isGet then 1 else 0
  computes : t.findsStale = true → t.computes = true

section Turn
variable {c : Cache α} {key : String} {now : Instant}

theorem stats_keep (c : Cache α) (key : String) (computed : Computed ε α) : (c.keep key computed).stats = c.stats := by
  rw [keep]
  split
  · rfl
  · split <;> rfl

theorem stats_purge (c : Cache α) (now : Instant) : (c.purge now).2.stats = c.stats := rfl

theorem stats_invalidate (c : Cache α) (key : String) : (c.invalidate key).2.stats = c.stats := rfl

theorem size_keep (h : c.Distinct) (key : String) (now : Instant) (computed : Computed ε α) :
    (c.keep key computed).size = c.size +
      if ({ cache := c, op := .get key now computed, reply := .got computed.outcome true } : Turn ε α).adds
      then 1 else 0 := by
  rw [keep]
  cases hout : computed.outcome with
  | error err => simp
  | ok v =>
    by_cases httl : c.ttl = 0
    · simp [httl]
    · simp [httl, size_store h]

theorem changes_get (h : c.Distinct) (key : String) (now : Instant) (computed : Computed ε α) :
    (c.turn (.get key now computed)).Changes (c.step (.get key now computed)).2 := by
  by_cases hfresh : ∃ e, c.find? key = some e ∧ e.isFresh now c.ttl = true
  · obtain ⟨e, he, hfresh⟩ := hfresh
    have hage : e.age now < c.ttl := of_decide_eq_true hfresh
    rw [turn, step_get_fresh he hfresh]
    constructor <;> simp [he, hage, countHit, size]
  · have hstale : ∀ e, c.find? key = some e → e.isFresh now c.ttl = false :=
      fun e he => Bool.eq_false_iff.mpr fun h => hfresh ⟨e, he, h⟩
    rw [turn, step_get_stale hstale, keep_countMiss]
    constructor
    · simp [stats_countMiss, stats_keep]
    · simp [stats_countMiss, stats_keep]
    · simp [stats_countMiss, stats_keep, any_stale hstale]
    · simpa [size, countMiss] using size_keep h key now computed
    · simp
    · simp

theorem changes (h : c.Distinct) {op : Op ε α} (hop : op ≠ .clear) : (c.turn op).Changes (c.step op).2 := by
  cases op with
  | get key now computed => exact changes_get h key now computed
  | purge now => constructor <;> simp [turn, step, stats_purge, size_purge]
  | invalidate key =>
    constructor
    case size => exact size_invalidate h key
    all_goals simp [turn, step, stats_invalidate]
  | clear => exact absurd rfl hop

end Turn

/-! ### The invariant -/

/-- What a cache has counted and how much it holds, read off what was carried out since it was cleared. -/
structure Counts (c : Cache α) (turns : List (Turn ε α)) : Prop where
  hits : c.stats.hits = .ofNat (turns.countP Turn.hits)
  misses : c.stats.misses = .ofNat (turns.countP Turn.computes)
  expirations : c.stats.expirations = .ofNat (turns.countP Turn.findsStale)
  size : c.size + turns.countP Turn.invalidates + (turns.map Turn.purged).sum = turns.countP Turn.adds
  asked : turns.countP Turn.hits + turns.countP Turn.computes = turns.countP Turn.isGet
  stale_le : turns.countP Turn.findsStale ≤ turns.countP Turn.computes

theorem counts_empty (ttl : Nat) : Counts (empty ttl : Cache α) ([] : List (Turn ε α)) :=
  ⟨rfl, rfl, rfl, rfl, rfl, Nat.le_refl _⟩

theorem ofNat_countP_snoc (p : Turn ε α → Bool) (ts : List (Turn ε α)) (t : Turn ε α) :
    UInt64.ofNat ((ts ++ [t]).countP p) = .ofNat (ts.countP p) + if p t then 1 else 0 := by
  rw [List.countP_append, List.countP_singleton, UInt64.ofNat_add]
  cases p t <;> rfl

theorem Counts.snoc {t : Turn ε α} {c : Cache α} {ts : List (Turn ε α)} (h : Counts t.cache ts) (ht : t.Changes c) :
    Counts c (ts ++ [t]) where
  hits := by rw [ofNat_countP_snoc, ht.hits, h.hits]
  misses := by rw [ofNat_countP_snoc, ht.misses, h.misses]
  expirations := by rw [ofNat_countP_snoc, ht.expirations, h.expirations]
  size := by
    have hsize := ht.size
    have hbefore := h.size
    simp only [List.countP_append, List.countP_singleton, List.map_append, List.map_cons, List.map_nil,
      List.sum_append, List.sum_cons, List.sum_nil]
    omega
  asked := by
    have hasked := ht.asked
    have hbefore := h.asked
    simp only [List.countP_append, List.countP_singleton]
    omega
  stale_le := by
    have hcomputes := ht.computes
    have hbefore := h.stale_le
    simp only [List.countP_append, List.countP_singleton]
    by_cases hstale : t.findsStale = true
    · rw [if_pos hstale, if_pos (hcomputes hstale)]
      omega
    · rw [if_neg hstale]
      omega

theorem counts_after (ttl : Nat) (ops : List (Op ε α)) : Counts (after ttl ops) (sinceCleared ttl ops) := by
  induction ops using List.reverseRecOn with
  | nil => exact counts_empty ttl
  | append_singleton ops op ih =>
    rw [after_snoc, sinceCleared_snoc]
    by_cases hop : op = .clear
    · subst hop
      simpa [turn, step, clear] using counts_empty (after ttl ops).ttl
    · have hclear : ((after ttl ops).turn op).isClear = false := by
        cases op <;> simp_all [turn]
      rw [hclear]
      exact ih.snoc (changes (distinct_after ttl ops) hop)

/-! ### The law -/

/-- The balance of a cache with what was carried out since it was cleared. -/
structure Balanced (c : Cache α) (turns : List (Turn ε α)) : Prop where
  asked : c.stats.hits.toNat + c.stats.misses.toNat = turns.countP Turn.isGet
  computed : c.stats.misses.toNat = turns.countP Turn.computes
  expired : c.stats.expirations.toNat = turns.countP Turn.findsStale
  expirations_le : c.stats.expirations ≤ c.stats.misses
  invalidated : ∀ key, (c.invalidate key).2.stats = c.stats
  purged : ∀ now, (c.purge now).2.stats = c.stats
  size : (c.size : Int) = turns.countP Turn.adds - turns.countP Turn.invalidates - (turns.map Turn.purged).sum
  isEmpty : c.isEmpty = true ↔ c.size = 0

/-- The counts and the size of a cache add up in every run, on any clock and whatever is computed. -/
theorem balanced_after (ttl : Nat) (ops : List (Op ε α))
    (hfew : (sinceCleared ttl ops).countP Turn.isGet < UInt64.size) :
    Balanced (after ttl ops) (sinceCleared ttl ops) := by
  have h := counts_after ttl ops
  have hasked := h.asked
  have hstale := h.stale_le
  have hsize := h.size
  have hhits : (after ttl ops).stats.hits.toNat = (sinceCleared ttl ops).countP Turn.hits := by
    rw [h.hits]
    exact UInt64.toNat_ofNat_of_lt (by omega)
  have hmisses : (after ttl ops).stats.misses.toNat = (sinceCleared ttl ops).countP Turn.computes := by
    rw [h.misses]
    exact UInt64.toNat_ofNat_of_lt (by omega)
  have hexpirations : (after ttl ops).stats.expirations.toNat = (sinceCleared ttl ops).countP Turn.findsStale := by
    rw [h.expirations]
    exact UInt64.toNat_ofNat_of_lt (by omega)
  constructor
  · omega
  · exact hmisses
  · exact hexpirations
  · rw [UInt64.le_iff_toNat_le]
    omega
  · exact fun key => stats_invalidate _ key
  · exact fun now => stats_purge _ now
  · omega
  · exact List.isEmpty_iff_length_eq_zero

/-- Two entries found too old, of which the second is replaced; then one entry is invalidated and one purged. What
    was there before the cache was cleared does not count. -/
theorem balanced_after_replaced :
    let ops : List (Op String Nat) := [.get "z" 0 ⟨.ok 0, 0⟩, .clear, .get "a" 0 ⟨.ok 1, 1⟩, .get "a" 5 ⟨.ok 1, 5⟩,
      .get "a" 12 ⟨.error "no", 12⟩, .get "a" 13 ⟨.ok 2, 14⟩, .get "b" 15 ⟨.ok 3, 16⟩, .invalidate "a",
      .invalidate "a", .purge 40, .get "c" 41 ⟨.ok 4, 42⟩]
    Balanced (after 10 ops) (sinceCleared 10 ops) ∧
      (sinceCleared 10 ops).countP Turn.isGet = 6 ∧ (sinceCleared 10 ops).countP Turn.adds = 3 ∧
      (after 10 ops).stats = { hits := 1, misses := 5, expirations := 2 } ∧ (after 10 ops).size = 1 := by
  intro ops
  have hgets : (sinceCleared 10 ops).countP Turn.isGet = 6 := rfl
  have hbalanced := balanced_after 10 ops (hgets ▸ by decide)
  have hsize : ((after 10 ops).size : Int) = 3 - 1 - 1 := hbalanced.size
  exact ⟨hbalanced, hgets, rfl, rfl, by omega⟩

end EntityQuery.Cache
