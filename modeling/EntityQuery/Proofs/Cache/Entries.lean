import EntityQuery.Cache.Run

/-! # Entries of a cache

What each operation does to the entry of a key, where a cache has one entry for a key at most
(`Cache.Distinct`). Storing and invalidating touch one key and leave the entries of all others as they
are; purging takes away the entries that are too old and no others. -/

namespace EntityQuery.Cache
variable {ε α : Type} {c : Cache α} {key key' : String} {now : Instant}

/-- No key has two entries. -/
def Distinct (c : Cache α) : Prop :=
  (c.entries.map Prod.fst).Nodup

/-! ### Lookup -/

theorem lookup_without (key key' : String) (entries : List (String × Entry α)) :
    (without key entries).lookup key' = if key' = key then none else entries.lookup key' := by
  induction entries with
  | nil => simp [without]
  | cons x entries ih =>
    obtain ⟨k, e⟩ := x
    rw [without] at ih ⊢
    by_cases hk : k = key
    · subst hk
      rw [List.filter_cons_of_neg (by simp), ih]
      split
      · rfl
      · rename_i hne
        rw [List.lookup_cons, beq_eq_false_iff_ne.mpr hne]
    · rw [List.filter_cons_of_pos (by simpa using hk), List.lookup_cons, List.lookup_cons, ih]
      by_cases hk' : key' = k
      · subst hk'
        simp [hk]
      · simp [beq_eq_false_iff_ne.mpr hk']

/-- A filter keeps the entry of a key that passes it, since the key has no other. -/
theorem lookup_filter {p : Entry α → Bool} {entries : List (String × Entry α)}
    (h : (entries.map Prod.fst).Nodup) (key : String) :
    (entries.filter fun x => p x.2).lookup key = (entries.lookup key).filter p := by
  induction entries with
  | nil => rfl
  | cons x entries ih =>
    obtain ⟨k, e⟩ := x
    obtain ⟨hk, hnodup⟩ := List.nodup_cons.mp h
    have ih := ih hnodup
    by_cases hkey : key = k
    · subst hkey
      have hnone : entries.lookup key = none := by
        rw [List.lookup_eq_none_iff]
        intro x hx
        rw [bne_iff_ne]
        rintro rfl
        exact hk (List.mem_map.mpr ⟨x, hx, rfl⟩)
      rw [hnone, Option.filter_none] at ih
      rw [List.filter_cons, List.lookup_cons_self, Option.filter_some]
      split
      · exact List.lookup_cons_self
      · exact ih
    · have hcons : ∀ rest : List (String × Entry α), ((k, e) :: rest).lookup key = rest.lookup key := by
        intro rest
        rw [List.lookup_cons, beq_eq_false_iff_ne.mpr hkey]
      rw [List.filter_cons, hcons]
      split
      · rw [hcons, ih]
      · exact ih

/-! ### Operations -/

theorem find?_store (value : α) :
    (c.store key value now).find? key' = if key' = key then some { value, created := now } else c.find? key' := by
  rw [find?, store, List.lookup_cons, lookup_without]
  by_cases h : key' = key
  · subst h
    simp
  · simp [beq_eq_false_iff_ne.mpr h, h, find?]

theorem find?_invalidate :
    (c.invalidate key).2.find? key' = if key' = key then none else c.find? key' :=
  lookup_without key key' c.entries

theorem find?_purge (h : c.Distinct) :
    (c.purge now).2.find? key = (c.find? key).filter fun e => e.isFresh now c.ttl :=
  lookup_filter (p := fun e => e.isFresh now c.ttl) h key

theorem not_mem_keys_without (key : String) (entries : List (String × Entry α)) :
    key ∉ (without key entries).map Prod.fst := by
  simp [without]

theorem distinct_without (h : c.Distinct) (key : String) : ((without key c.entries).map Prod.fst).Nodup :=
  h.sublist (List.filter_sublist.map Prod.fst)

theorem distinct_store (h : c.Distinct) (value : α) : (c.store key value now).Distinct :=
  List.nodup_cons.mpr ⟨not_mem_keys_without key c.entries, distinct_without h key⟩

theorem distinct_purge (h : c.Distinct) : (c.purge now).2.Distinct :=
  h.sublist (List.filter_sublist.map Prod.fst)

/-! ### What a `get` does -/

/-- Keeps what was computed for a key, unless it failed or nothing lives. -/
def keep (c : Cache α) (key : String) (computed : Computed ε α) : Cache α :=
  match computed.outcome with
  | .error _ => c
  | .ok v => if c.ttl = 0 then c else c.store key v computed.finished

theorem step_get_fresh {e : Entry α} (he : c.find? key = some e) (hfresh : e.isFresh now c.ttl = true)
    (computed : Computed ε α) : c.step (.get key now computed) = (.got (.ok e.value) false, c.countHit) := by
  simp [step, get, he, hfresh]

theorem step_get_stale (hstale : ∀ e, c.find? key = some e → e.isFresh now c.ttl = false) (computed : Computed ε α) :
    c.step (.get key now computed) =
      (.got computed.outcome true, (c.countMiss (c.find? key).isSome).keep key computed) := by
  have hmiss : (c.get key now fun _ => computed) =
      get.miss key (fun _ => computed) (c.countMiss (c.find? key).isSome) := by
    rw [get]
    cases he : c.find? key with
    | none => rfl
    | some e => simp [hstale e he]
  rw [step, hmiss, get.miss, keep]
  cases computed.outcome <;> rfl

/-- The answer of a `get`, case by case: a fresh entry answers; else the value is computed, and it is kept
    when that succeeds and something lives. -/
theorem step_get_cases (c : Cache α) (key : String) (now : Instant) (computed : Computed ε α) :
    (∃ e, c.find? key = some e ∧ e.isFresh now c.ttl = true ∧
      c.step (.get key now computed) = (.got (.ok e.value) false, c.countHit)) ∨
    ((∀ e, c.find? key = some e → e.isFresh now c.ttl = false) ∧ ∃ stale,
      ((∃ err, computed.outcome = .error err ∧
        c.step (.get key now computed) = (.got (.error err) true, c.countMiss stale)) ∨
       (∃ v, computed.outcome = .ok v ∧ c.ttl = 0 ∧
        c.step (.get key now computed) = (.got (.ok v) true, c.countMiss stale)) ∨
       (∃ v, computed.outcome = .ok v ∧ c.ttl ≠ 0 ∧
        c.step (.get key now computed) =
          (.got (.ok v) true, (c.countMiss stale).store key v computed.finished)))) := by
  by_cases hfresh : ∃ e, c.find? key = some e ∧ e.isFresh now c.ttl = true
  · obtain ⟨e, he, hfresh⟩ := hfresh
    exact Or.inl ⟨e, he, hfresh, step_get_fresh he hfresh computed⟩
  · have hstale : ∀ e, c.find? key = some e → e.isFresh now c.ttl = false :=
      fun e he => Bool.eq_false_iff.mpr fun h => hfresh ⟨e, he, h⟩
    refine Or.inr ⟨hstale, (c.find? key).isSome, ?_⟩
    rw [step_get_stale hstale, keep]
    cases computed.outcome with
    | error err => exact Or.inl ⟨err, rfl, rfl⟩
    | ok v =>
      by_cases httl : c.ttl = 0
      · refine Or.inr (Or.inl ⟨v, rfl, httl, ?_⟩)
        simp [countMiss, httl]
      · refine Or.inr (Or.inr ⟨v, rfl, httl, ?_⟩)
        simp [countMiss, httl]

end EntityQuery.Cache
