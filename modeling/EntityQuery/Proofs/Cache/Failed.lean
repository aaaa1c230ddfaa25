import EntityQuery.Proofs.Cache.History

/-! # Failures leave no trace

A `get` that fails changes what a cache has counted and nothing else: its entries stay as they are, one of the
same key that is too old among them. What was counted is carried along by every later operation until the cache
is cleared (`step_countMiss`), so a run without the failed `get` gives the same replies. -/

namespace EntityQuery.Cache
variable {ε α : Type} {c : Cache α}

/-! ### Counts are carried along -/

theorem keep_countMiss (c : Cache α) (stale : Bool) (key : String) (computed : Computed ε α) :
    (c.countMiss stale).keep key computed = (c.keep key computed).countMiss stale := by
  rw [keep, keep]
  cases computed.outcome with
  | error _ => rfl
  | ok v =>
    show (if c.ttl = 0 then _ else _) = countMiss (if c.ttl = 0 then _ else _) stale
    split <;> rfl

theorem countMiss_comm (c : Cache α) (stale stale' : Bool) :
    (c.countMiss stale).countMiss stale' = (c.countMiss stale').countMiss stale := by
  cases stale <;> cases stale' <;> rfl

/-- A miss that was counted before an operation is counted after it, and changes no reply. -/
theorem step_countMiss (c : Cache α) (stale : Bool) {op : Op ε α} (hop : op ≠ .clear) :
    (c.countMiss stale).step op = ((c.step op).1, (c.step op).2.countMiss stale) := by
  cases op with
  | get key now computed =>
    by_cases hfresh : ∃ e, c.find? key = some e ∧ e.isFresh now c.ttl = true
    · obtain ⟨e, he, hfresh⟩ := hfresh
      rw [step_get_fresh he hfresh, step_get_fresh (c := c.countMiss stale) he hfresh]
      rfl
    · have hstale : ∀ e, c.find? key = some e → e.isFresh now c.ttl = false :=
        fun e he => Bool.eq_false_iff.mpr fun h => hfresh ⟨e, he, h⟩
      rw [step_get_stale hstale, step_get_stale (c := c.countMiss stale) hstale]
      show (_, ((c.countMiss stale).countMiss (c.find? key).isSome).keep key computed) = _
      rw [countMiss_comm, keep_countMiss]
  | purge now => rfl
  | invalidate key => rfl
  | clear => exact absurd rfl hop

/-- A miss that was counted before a run changes no reply, and is forgotten when the cache is cleared. -/
theorem run_countMiss (c : Cache α) (stale : Bool) (ops : List (Op ε α)) :
    ((c.countMiss stale).run ops).1 = (c.run ops).1 ∧
      ((.clear ∈ ops → ((c.countMiss stale).run ops).2 = (c.run ops).2) ∧
       (.clear ∉ ops → ((c.countMiss stale).run ops).2 = (c.run ops).2.countMiss stale)) := by
  induction ops generalizing c with
  | nil => exact ⟨rfl, fun h => absurd h List.not_mem_nil, fun _ => rfl⟩
  | cons op ops ih =>
    by_cases hop : op = .clear
    -- A cleared cache has the same time to live and nothing else of what it was.
    · subst hop
      exact ⟨rfl, fun _ => rfl, fun h => absurd List.mem_cons_self h⟩
    · obtain ⟨hreplies, hcleared, hkept⟩ := ih (c.step op).2
      rw [run, run, step_countMiss c stale hop]
      refine ⟨congrArg (_ :: ·) hreplies, fun h => hcleared ?_, fun h => hkept ?_⟩
      · exact (List.mem_cons.mp h).resolve_left (Ne.symm hop)
      · exact fun h' => h (List.mem_cons_of_mem _ h')

/-! ### The law -/

section Failed
variable {key : String} {now : Instant} {computed : Computed ε α} {err : ε} {called : Bool}

/-- A `get` that fails has found no fresh entry; it counts a miss, and the entry that was too old if there was one. -/
theorem step_failed (h : (c.step (.get key now computed)).1 = .got (.error err) called) :
    (∀ e, c.find? key = some e → e.isFresh now c.ttl = false) ∧
      (c.step (.get key now computed)).2 = c.countMiss (c.find? key).isSome := by
  have hstale : ∀ e, c.find? key = some e → e.isFresh now c.ttl = false := by
    intro e he
    rw [Bool.eq_false_iff]
    intro hfresh
    rw [step_get_fresh he hfresh] at h
    exact nomatch (Reply.got.inj h).1
  rw [step_get_stale hstale] at h ⊢
  refine ⟨hstale, ?_⟩
  rw [keep, (Reply.got.inj h).1]

/-- The replies of a run, without the reply to one of its operations. -/
theorem eraseIdx_run (ttl : Nat) (before rest : List (Op ε α)) (op : Op ε α) :
    ((empty ttl : Cache α).run (before ++ op :: rest)).1.eraseIdx before.length =
      ((empty ttl : Cache α).run before).1 ++ (((after ttl before).step op).2.run rest).1 := by
  have hlength := length_run (empty ttl : Cache α) before
  rw [run_append, List.eraseIdx_append_of_length_le (Nat.le_of_eq hlength), hlength, Nat.sub_self]
  rfl

theorem any_stale (hstale : ∀ e, c.find? key = some e → e.isFresh now c.ttl = false) :
    (c.find? key).any (fun e => c.ttl ≤ e.age now) = (c.find? key).isSome := by
  cases he : c.find? key with
  | none => rfl
  | some e => exact decide_eq_true (Nat.le_of_not_lt (of_decide_eq_false (hstale e he)))

theorem stats_countMiss (c : Cache α) (stale : Bool) : (c.countMiss stale).stats =
    { hits := c.stats.hits
      misses := c.stats.misses + 1
      expirations := c.stats.expirations + if stale then 1 else 0 } := by
  cases stale with
  | false => simp [countMiss]
  | true => rfl

/-- Without a `get` that failed, a run gives the same replies otherwise and leaves the same entries; until the
    cache is cleared, one miss less is counted, and one expiration less if the `get` found an entry too old. -/
theorem run_without_failed (ttl : Nat) (before : List (Op ε α)) (key : String) (now : Instant)
    (computed : Computed ε α) (h : ((after ttl before).step (.get key now computed)).1 = .got (.error err) called) :
    (after ttl (before ++ [.get key now computed])).entries = (after ttl before).entries ∧
    ∀ rest : List (Op ε α),
      ((empty ttl : Cache α).run (before ++ .get key now computed :: rest)).1.eraseIdx before.length =
        ((empty ttl : Cache α).run (before ++ rest)).1 ∧
      (after ttl (before ++ .get key now computed :: rest)).entries = (after ttl (before ++ rest)).entries ∧
      (.clear ∈ rest →
        (after ttl (before ++ .get key now computed :: rest)).stats = (after ttl (before ++ rest)).stats) ∧
      (.clear ∉ rest →
        (after ttl (before ++ .get key now computed :: rest)).stats =
          { hits := (after ttl (before ++ rest)).stats.hits
            misses := (after ttl (before ++ rest)).stats.misses + 1
            expirations := (after ttl (before ++ rest)).stats.expirations +
              if ((after ttl before).find? key).any (fun e => ttl ≤ e.age now) then 1 else 0 }) := by
  obtain ⟨hstale, hstep⟩ := step_failed h
  have hany := any_stale hstale
  rw [ttl_after] at hany
  rw [hany]
  generalize ((after ttl before).find? key).isSome = stale at hstep ⊢
  have hwith : ∀ rest : List (Op ε α), after ttl (before ++ .get key now computed :: rest) =
      (((after ttl before).countMiss stale).run rest).2 := by
    intro rest
    rw [after_append, ← hstep]
    rfl
  have hentries : (after ttl (before ++ [.get key now computed])).entries = (after ttl before).entries := by
    rw [hwith]
    rfl
  refine ⟨hentries, fun rest => ?_⟩
  obtain ⟨hreplies, hcleared, hkept⟩ := run_countMiss (after ttl before) stale rest
  rw [hwith, after_append]
  refine ⟨?_, ?_, fun hclear => ?_, fun hclear => ?_⟩
  · rw [eraseIdx_run, run_append, hstep, hreplies]
    rfl
  · by_cases hclear : .clear ∈ rest
    · rw [hcleared hclear]
    · rw [hkept hclear]
      rfl
  · rw [hcleared hclear]
  · rw [hkept hclear, stats_countMiss]

/-- At the moment 12 the value computed at the moment 1 is too old, and computing it anew fails. -/
theorem run_without_failed_stale :
    let before : List (Op String Nat) := [.get "a" 0 ⟨.ok 1, 1⟩]
    let failed : Op String Nat := .get "a" 12 ⟨.error "no", 13⟩
    let rest : List (Op String Nat) := [.invalidate "b", .get "a" 9 ⟨.ok 2, 10⟩, .purge 20]
    ((after 10 before).step failed).1 = .got (.error "no") true ∧
      ((after 10 (before ++ [failed])).find? "a" = some { value := 1, created := 1 }) ∧
      (after 10 (before ++ failed :: rest)).stats = { hits := 1, misses := 2, expirations := 1 } ∧
      (after 10 (before ++ rest)).stats = { hits := 1, misses := 1, expirations := 0 } := by
  intro before failed rest
  obtain ⟨hentries, hrest⟩ := run_without_failed 10 before "a" 12 ⟨.error "no", 13⟩ rfl
  obtain ⟨-, -, -, hstats⟩ := hrest rest
  refine ⟨rfl, ?_, (hstats (by simp [rest])).trans rfl, rfl⟩
  rw [find?, hentries]
  rfl

end Failed

end EntityQuery.Cache
