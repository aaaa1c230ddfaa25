import Mathlib.Data.List.Induction
import EntityQuery.Proofs.Cache.Entries

/-! # The history of a cache

Which answers of a cache come from earlier computations. A `get` is answered without computing exactly
when its key was computed before, less than the time to live ago, and neither the key was invalidated nor
the cache cleared since; the answer is then the value computed last. The invariant `Remembers` relates the
entries to the operations so far: an entry is the last computed value of its key, and a value that has no
entry any more was dropped, or was too old at some reading of the clock. The clock does not go back, so it
is still too old now. -/

namespace EntityQuery.Cache
variable {ε α : Type}

/-! ### Runs -/

/-- The cache after some operations on an empty one. -/
def after (ttl : Nat) (ops : List (Op ε α)) : Cache α :=
  ((empty ttl : Cache α).run ops).2

/-- What the clock showed each time an operation read it: at the start of a `get` and of a purge, and once
    more when a value was computed that is to be stored. -/
def Op.readings (ttl : Nat) : Op ε α → Reply ε α → List Instant
  | .get _ now computed, .got (.ok _) true => if ttl = 0 then [now] else [now, computed.finished]
  | .get _ now _, _ => [now]
  | .purge now, _ => [now]
  | _, _ => []

/-- What the clock showed during some operations. -/
def readings (c : Cache α) : List (Op ε α) → List Instant
  | [] => []
  | op :: ops => op.readings c.ttl (c.step op).1 ++ (c.step op).2.readings ops

/-- The operation removes the entry of the key, whatever its age. -/
def Op.Drops (key : String) : Op ε α → Prop
  | .invalidate k => k = key
  | .clear => True
  | _ => False

/-- The operation is a `get` of the key that computes a value, and the clock is read afterwards. -/
structure Op.Computes (op : Op ε α) (c : Cache α) (key : String) (e : Entry α) : Prop where
  lives : c.ttl ≠ 0
  asks : ∃ now, op = .get key now { outcome := .ok e.value, finished := e.created }
  called : (c.step op).1 = .got (.ok e.value) true

/-- Among the operations a `get` of the key computed a value; the operations `since` came after it. -/
def ComputedBefore (ttl : Nat) (ops : List (Op ε α)) (key : String) (e : Entry α) (since : List (Op ε α)) : Prop :=
  ∃ earlier op, ops = earlier ++ op :: since ∧ op.Computes (after ttl earlier) key e

/-- A value was computed for the key less than the time to live ago and was not dropped since. -/
structure Serves (ttl : Nat) (ops : List (Op ε α)) (key : String) (now : Instant) (e : Entry α)
    (since : List (Op ε α)) : Prop where
  computed : ComputedBefore ttl ops key e since
  young : now - e.created < ttl
  kept : ∀ op ∈ since, ¬op.Drops key

/-- Of the values of the key that still serve, the one that was computed last. -/
structure ServesLast (ttl : Nat) (ops : List (Op ε α)) (key : String) (now : Instant) (e : Entry α)
    (since : List (Op ε α)) : Prop extends Serves ttl ops key now e since where
  last : ∀ e' since', Serves ttl ops key now e' since' → since.length ≤ since'.length

theorem now_mem_readings {ttl : Nat} {key : String} {now : Instant} {computed : Computed ε α} {reply : Reply ε α} :
    now ∈ (Op.get key now computed).readings ttl reply := by
  cases reply with
  | got result called =>
    rcases result with _ | _
    · exact List.mem_cons_self
    · cases called with
      | false => exact List.mem_cons_self
      | true =>
        rw [Op.readings]
        split <;> exact List.mem_cons_self
  | _ => exact List.mem_cons_self

theorem run_append (c : Cache α) (ops ops' : List (Op ε α)) :
    c.run (ops ++ ops') = ((c.run ops).1 ++ ((c.run ops).2.run ops').1, ((c.run ops).2.run ops').2) := by
  induction ops generalizing c with
  | nil => rfl
  | cons op ops ih =>
    rw [List.cons_append, run, run]
    simp only [ih, List.cons_append]

theorem length_run (c : Cache α) (ops : List (Op ε α)) : (c.run ops).1.length = ops.length := by
  induction ops generalizing c with
  | nil => rfl
  | cons op ops ih => simp [run, ih]

theorem readings_append (c : Cache α) (ops ops' : List (Op ε α)) :
    c.readings (ops ++ ops') = c.readings ops ++ (c.run ops).2.readings ops' := by
  induction ops generalizing c with
  | nil => rfl
  | cons op ops ih =>
    rw [List.cons_append, readings, readings, ih, List.append_assoc]
    rfl

theorem after_append (ttl : Nat) (ops ops' : List (Op ε α)) :
    after ttl (ops ++ ops') = ((after ttl ops).run ops').2 := by
  rw [after, run_append]
  rfl

theorem after_snoc (ttl : Nat) (ops : List (Op ε α)) (op : Op ε α) :
    after ttl (ops ++ [op]) = ((after ttl ops).step op).2 :=
  after_append ttl ops [op]

theorem readings_snoc (ttl : Nat) (ops : List (Op ε α)) (op : Op ε α) :
    (empty ttl : Cache α).readings (ops ++ [op]) = (empty ttl : Cache α).readings ops ++
      op.readings (after ttl ops).ttl ((after ttl ops).step op).1 := by
  rw [readings_append]
  show _ ++ (_ ++ []) = _
  rw [List.append_nil]
  rfl

theorem computedBefore_snoc {ttl : Nat} {ops : List (Op ε α)} {op : Op ε α} {key : String} {e : Entry α}
    {since : List (Op ε α)} (h : ComputedBefore ttl (ops ++ [op]) key e since) :
    since = [] ∧ op.Computes (after ttl ops) key e ∨
      ∃ since', since = since' ++ [op] ∧ ComputedBefore ttl ops key e since' := by
  obtain ⟨earlier, op', heq, hop⟩ := h
  rcases List.eq_nil_or_concat since with rfl | ⟨since', last, rfl⟩
  · obtain ⟨rfl, hlast⟩ := List.append_inj' heq rfl
    obtain rfl := List.singleton_inj.mp hlast
    exact Or.inl ⟨rfl, hop⟩
  · rw [List.concat_eq_append, ← List.cons_append, ← List.append_assoc] at heq
    obtain ⟨rfl, hlast⟩ := List.append_inj' heq rfl
    obtain rfl := List.singleton_inj.mp hlast
    exact Or.inr ⟨since', List.concat_eq_append, earlier, op', rfl, hop⟩

theorem ComputedBefore.snoc {ttl : Nat} {ops : List (Op ε α)} {key : String} {e : Entry α} {since : List (Op ε α)}
    (h : ComputedBefore ttl ops key e since) (op : Op ε α) : ComputedBefore ttl (ops ++ [op]) key e (since ++ [op]) := by
  obtain ⟨earlier, op', rfl, hop⟩ := h
  exact ⟨earlier, op', by simp, hop⟩

theorem Op.Computes.computedBefore {ttl : Nat} {ops : List (Op ε α)} {op : Op ε α} {key : String} {e : Entry α}
    (h : op.Computes (after ttl ops) key e) : ComputedBefore ttl (ops ++ [op]) key e [] :=
  ⟨ops, op, rfl, h⟩

/-- An operation computes one value. -/
theorem Op.Computes.entry_eq {c : Cache α} {op : Op ε α} {key : String} {e e' : Entry α} (h : op.Computes c key e)
    (h' : op.Computes c key e') : e = e' := by
  obtain ⟨now, rfl⟩ := h.asks
  obtain ⟨now', heq⟩ := h'.asks
  obtain ⟨-, -, hcomputed⟩ := Op.get.inj heq
  obtain ⟨hvalue, hcreated⟩ := Computed.mk.inj hcomputed
  obtain ⟨value, created⟩ := e
  obtain ⟨value', created'⟩ := e'
  cases hvalue
  cases hcreated
  rfl

theorem Op.Computes.created_mem {c : Cache α} {op : Op ε α} {key : String} {e : Entry α} (h : op.Computes c key e) :
    e.created ∈ op.readings c.ttl (c.step op).1 := by
  rw [h.called]
  obtain ⟨now, rfl⟩ := h.asks
  simp [Op.readings, h.lives]

/-! ### What a step does to the entry of a key -/

/-- Either the operation computes a new entry for the key, or it computes none for it, and the entry is lost
    only when it is dropped or too old. -/
inductive Effect (c : Cache α) (op : Op ε α) (key : String) : Prop
  | computed (e : Entry α) : op.Computes c key e → (c.step op).2.find? key = some e → Effect c op key
  | other : (∀ e, ¬op.Computes c key e) →
      (∀ e, (c.step op).2.find? key = some e → c.find? key = some e ∧ ¬op.Drops key) →
      (∀ e, c.find? key = some e → op.Drops key ∨ (c.step op).2.find? key = some e ∨
        ∃ t ∈ op.readings c.ttl (c.step op).1, e.isFresh t c.ttl = false) → Effect c op key

section Step
variable {c : Cache α} {op : Op ε α} {key : String}

theorem Effect.same (hno : ∀ e, ¬op.Computes c key e) (hdrops : ¬op.Drops key)
    (h : (c.step op).2.find? key = c.find? key) : Effect c op key :=
  .other hno (fun _ he => ⟨h ▸ he, hdrops⟩) fun _ he => Or.inr (Or.inl (h.trans he))

theorem effect_get (k : String) (now : Instant) (computed : Computed ε α) :
    Effect c (.get k now computed) key := by
  have computes : ∀ e, (Op.get k now computed).Computes c key e →
      key = k ∧ computed = { outcome := .ok e.value, finished := e.created } := by
    intro e h
    obtain ⟨now', heq⟩ := h.asks
    obtain ⟨hk, -, hcomputed⟩ := Op.get.inj heq
    exact ⟨hk.symm, hcomputed⟩
  rcases step_get_cases c k now computed with ⟨e, he, -, hstep⟩ | ⟨-, stale, h⟩
  · refine .same (fun e h => ?_) id (by rw [hstep]; rfl)
    have hcalled := h.called
    rw [hstep] at hcalled
    exact Bool.false_ne_true (Reply.got.inj hcalled).2
  · rcases h with ⟨err, -, hstep⟩ | ⟨v, -, httl, hstep⟩ | ⟨v, hv, httl, hstep⟩
    · refine .same (fun e h => ?_) id (by rw [hstep]; rfl)
      have hcalled := h.called
      rw [hstep] at hcalled
      exact nomatch (Reply.got.inj hcalled).1
    · exact .same (fun e h => h.lives httl) id (by rw [hstep]; rfl)
    · by_cases hk : key = k
      · subst hk
        refine .computed { value := v, created := computed.finished } ⟨httl, ⟨now, ?_⟩, ?_⟩ ?_
        · rw [← hv]
        · rw [hstep]
        · rw [hstep, find?_store, if_pos rfl]
      · refine .same (fun e h => hk (computes e h).1) id ?_
        rw [hstep, find?_store, if_neg hk]
        rfl

theorem effect (h : c.Distinct) (op : Op ε α) (key : String) : Effect c op key := by
  cases op with
  | get k now computed => exact effect_get k now computed
  | purge now =>
    have hentry : (c.step (.purge now : Op ε α)).2.find? key = (c.find? key).filter fun e => e.isFresh now c.ttl :=
      find?_purge h
    refine .other (fun e h => ?_) (fun e he => ?_) fun e he => ?_
    · obtain ⟨_, heq⟩ := h.asks
      cases heq
    · rw [hentry] at he
      exact ⟨(Option.filter_eq_some_iff.mp he).1, id⟩
    · right
      cases hfresh : e.isFresh now c.ttl with
      | true =>
        left
        rw [hentry, he, Option.filter_some, if_pos hfresh]
      | false => exact Or.inr ⟨now, by simp [Op.readings], hfresh⟩
  | invalidate k =>
    have hentry : (c.step (.invalidate k : Op ε α)).2.find? key = if key = k then none else c.find? key :=
      find?_invalidate
    refine .other (fun e h => ?_) (fun e he => ?_) fun e he => ?_
    · obtain ⟨_, heq⟩ := h.asks
      cases heq
    · rw [hentry] at he
      obtain ⟨hk, he⟩ := Option.ite_none_left_eq_some.mp he
      exact ⟨he, fun h => hk h.symm⟩
    · by_cases hk : key = k
      · exact Or.inl hk.symm
      · exact Or.inr (Or.inl (by rw [hentry, if_neg hk, he]))
  | clear =>
    refine .other (fun e h => ?_) (fun e he => ?_) fun e _ => Or.inl trivial
    · obtain ⟨_, heq⟩ := h.asks
      cases heq
    · cases he

theorem distinct_step (h : c.Distinct) (op : Op ε α) : (c.step op).2.Distinct := by
  cases op with
  | get k now computed =>
    rcases step_get_cases c k now computed with
      ⟨_, -, -, hstep⟩ | ⟨-, stale, ⟨_, -, hstep⟩ | ⟨_, -, -, hstep⟩ | ⟨v, -, -, hstep⟩⟩ <;> rw [hstep]
    · exact h
    · exact h
    · exact h
    · exact distinct_store (c := c.countMiss stale) h v
  | purge now => exact distinct_purge h
  | invalidate k => exact distinct_without h k
  | clear => exact List.nodup_nil

theorem ttl_step (c : Cache α) (op : Op ε α) : (c.step op).2.ttl = c.ttl := by
  cases op with
  | get k now computed =>
    rcases step_get_cases c k now computed with
      ⟨_, -, -, hstep⟩ | ⟨-, stale, ⟨_, -, hstep⟩ | ⟨_, -, -, hstep⟩ | ⟨v, -, -, hstep⟩⟩ <;> rw [hstep] <;> rfl
  | _ => rfl

end Step

/-! ### The invariant -/

/-- How the entries of a cache go back to the operations so far. -/
structure Remembers (ttl : Nat) (ops : List (Op ε α)) : Prop where
  /-- An entry is the last value computed for its key. -/
  last : ∀ {key e}, (after ttl ops).find? key = some e → ∃ since, ComputedBefore ttl ops key e since ∧
    (∀ op ∈ since, ¬op.Drops key) ∧ ∀ e' since', ComputedBefore ttl ops key e' since' → since.length ≤ since'.length
  /-- A computed value that was not dropped has its entry, or a later one, or was too old at some reading. -/
  kept : ∀ {key e since}, ComputedBefore ttl ops key e since → (∀ op ∈ since, ¬op.Drops key) →
    (∃ e', (after ttl ops).find? key = some e' ∧ e.created ≤ e'.created) ∨
      ∃ t ∈ (empty ttl : Cache α).readings ops, e.isFresh t ttl = false
  /-- The time of an entry was read from the clock. -/
  past : ∀ {key e since}, ComputedBefore ttl ops key e since → e.created ∈ (empty ttl : Cache α).readings ops

theorem distinct_after (ttl : Nat) (ops : List (Op ε α)) : (after ttl ops).Distinct := by
  induction ops using List.reverseRecOn with
  | nil => exact List.nodup_nil
  | append_singleton ops op ih =>
    rw [after_snoc]
    exact distinct_step ih op

theorem ttl_after (ttl : Nat) (ops : List (Op ε α)) : (after ttl ops).ttl = ttl := by
  induction ops using List.reverseRecOn with
  | nil => rfl
  | append_singleton ops op ih => rw [after_snoc, ttl_step, ih]

theorem not_computedBefore_nil {ttl : Nat} {key : String} {e : Entry α} {since : List (Op ε α)} :
    ¬ComputedBefore ttl [] key e since := by
  rintro ⟨earlier, op, heq, -⟩
  exact List.append_ne_nil_of_right_ne_nil earlier (List.cons_ne_nil op since) heq.symm

/-- An entry that was too old for a reading is too old later on, and so is one that is older still. -/
theorem isFresh_mono {e e' : Entry α} {t t' : Instant} {ttl : Nat} (hcreated : e.created ≤ e'.created)
    (ht : t' ≤ t) (h : e.isFresh t ttl = true) : e'.isFresh t' ttl = true := by
  have hage : e'.age t' ≤ e.age t := Int.toNat_le_toNat (Int.sub_le_sub ht hcreated)
  exact decide_eq_true (Nat.lt_of_le_of_lt hage (of_decide_eq_true h))

section Step
variable {ttl : Nat} {ops : List (Op ε α)} {op : Op ε α} {key : String} {e : Entry α} {since : List (Op ε α)}

/-- A step that computes a value for the key makes it the last one. -/
theorem Remembers.last_snoc (h : Remembers ttl ops)
    (he : (after ttl (ops ++ [op])).find? key = some e) :
    ∃ since, ComputedBefore ttl (ops ++ [op]) key e since ∧ (∀ op ∈ since, ¬op.Drops key) ∧
      ∀ e' since', ComputedBefore ttl (ops ++ [op]) key e' since' → since.length ≤ since'.length := by
  rw [after_snoc] at he
  cases effect (distinct_after ttl ops) op key with
  | computed e' hcomputes he' =>
    obtain rfl := Option.some.inj (he.symm.trans he')
    exact ⟨[], hcomputes.computedBefore, fun _ hop => (List.not_mem_nil hop).elim, fun _ _ _ => Nat.zero_le _⟩
  | other hno hbefore hafter =>
    obtain ⟨he, hdrops⟩ := hbefore e he
    obtain ⟨since, hcomputed, hkept, hlast⟩ := h.last he
    refine ⟨since ++ [op], hcomputed.snoc op, ?_, ?_⟩
    · intro op' hop'
      rcases List.mem_append.mp hop' with hop' | hop'
      · exact hkept op' hop'
      · exact List.mem_singleton.mp hop' ▸ hdrops
    · intro e' since' h'
      rcases computedBefore_snoc h' with ⟨-, hcomputes⟩ | ⟨since'', rfl, h''⟩
      · exact absurd hcomputes (hno e')
      · simpa using hlast e' since'' h''

/-- A computed value is overtaken by one of its key that is computed later, since the clock does not go back. -/
theorem Remembers.kept_snoc (h : Remembers ttl ops)
    (hclock : ((empty ttl : Cache α).readings (ops ++ [op])).Pairwise (· ≤ ·))
    (hcomputed : ComputedBefore ttl (ops ++ [op]) key e since) (hkept : ∀ op ∈ since, ¬op.Drops key) :
    (∃ e', (after ttl (ops ++ [op])).find? key = some e' ∧ e.created ≤ e'.created) ∨
      ∃ t ∈ (empty ttl : Cache α).readings (ops ++ [op]), e.isFresh t ttl = false := by
  rw [readings_snoc] at hclock ⊢
  obtain ⟨-, -, hlater⟩ := List.pairwise_append.mp hclock
  rw [after_snoc]
  rcases computedBefore_snoc hcomputed with ⟨-, hcomputes⟩ | ⟨since, rfl, hearlier⟩
  · cases effect (distinct_after ttl ops) op key with
    | computed e' hcomputes' he' => exact Or.inl ⟨e', he', (hcomputes.entry_eq hcomputes').symm ▸ Int.le_refl _⟩
    | other hno _ _ => exact absurd hcomputes (hno e)
  · have hdrops : ¬op.Drops key := hkept op (List.mem_append_right since (List.mem_singleton.mpr rfl))
    have hkept : ∀ op ∈ since, ¬op.Drops key := fun op' hop' => hkept op' (List.mem_append_left _ hop')
    cases effect (distinct_after ttl ops) op key with
    -- The new entry was read from the clock after the old one.
    | computed e' hcomputes he' => exact Or.inl ⟨e', he', hlater _ (h.past hearlier) _ hcomputes.created_mem⟩
    | other _ _ hafter =>
      rcases h.kept hearlier hkept with ⟨e', he', hle⟩ | ⟨t, ht, hold⟩
      · rcases hafter e' he' with hdrop | he' | ⟨t, ht, hold⟩
        · exact absurd hdrop hdrops
        · exact Or.inl ⟨e', he', hle⟩
        -- What outlived the value is too old already, so the value is.
        · refine Or.inr ⟨t, List.mem_append_right _ ht, ?_⟩
          rw [ttl_after] at hold
          exact Bool.eq_false_iff.mpr fun hfresh => Bool.eq_false_iff.mp hold (isFresh_mono hle (Int.le_refl t) hfresh)
      · exact Or.inr ⟨t, List.mem_append_left _ ht, hold⟩

theorem Remembers.past_snoc (h : Remembers ttl ops) (hcomputed : ComputedBefore ttl (ops ++ [op]) key e since) :
    e.created ∈ (empty ttl : Cache α).readings (ops ++ [op]) := by
  rw [readings_snoc]
  rcases computedBefore_snoc hcomputed with ⟨-, hcomputes⟩ | ⟨since, rfl, hearlier⟩
  · exact List.mem_append_right _ hcomputes.created_mem
  · exact List.mem_append_left _ (h.past hearlier)

end Step

/-- What holds of every run on a clock that does not go back. -/
theorem remembers (ttl : Nat) (ops : List (Op ε α))
    (hclock : ((empty ttl : Cache α).readings ops).Pairwise (· ≤ ·)) : Remembers ttl ops := by
  induction ops using List.reverseRecOn with
  | nil =>
    exact ⟨fun he => (nomatch he), fun h => absurd h not_computedBefore_nil, fun h => absurd h not_computedBefore_nil⟩
  | append_singleton ops op ih =>
    have hbefore := hclock
    rw [readings_snoc] at hbefore
    have h := ih (List.pairwise_append.mp hbefore).1
    exact ⟨h.last_snoc, h.kept_snoc hclock, h.past_snoc⟩

/-! ### The law -/

section Serves
variable {ttl : Nat} {before : List (Op ε α)} {key : String} {now : Instant} {e : Entry α} {since : List (Op ε α)}
  {computed : Computed ε α}

theorem not_serves_zero : ¬Serves 0 before key now e since := by
  rintro ⟨⟨earlier, op, -, hcomputes⟩, -, -⟩
  exact hcomputes.lives (ttl_after 0 earlier)

theorem isFresh_iff (httl : ttl ≠ 0) : e.isFresh now ttl = true ↔ now - e.created < ttl := by
  have hage : ∀ d : Int, d.toNat < ttl ↔ d < ttl := by omega
  rw [← hage]
  exact decide_eq_true_iff

theorem Serves.isFresh (h : Serves ttl before key now e since) : e.isFresh now ttl = true := by
  refine (isFresh_iff ?_).mpr h.young
  rintro rfl
  exact not_serves_zero h

/-- Past every reading of the clock, a value that serves has an entry that is fresh. -/
theorem Remembers.fresh_of_serves (h : Remembers ttl before)
    (hnow : ∀ t ∈ (empty ttl : Cache α).readings before, t ≤ now) (hserves : Serves ttl before key now e since) :
    ∃ e', (after ttl before).find? key = some e' ∧ e'.isFresh now ttl = true := by
  rcases h.kept hserves.computed hserves.kept with ⟨e', he', hle⟩ | ⟨t, ht, hold⟩
  · exact ⟨e', he', isFresh_mono hle (Int.le_refl now) hserves.isFresh⟩
  · exact absurd (isFresh_mono (Int.le_refl _) (hnow t ht) hserves.isFresh) (Bool.eq_false_iff.mp hold)

/-- A fresh entry is the value computed last of those that serve. -/
theorem Remembers.servesLast_of_fresh (h : Remembers ttl before) (he : (after ttl before).find? key = some e)
    (hfresh : e.isFresh now ttl = true) : ∃ since, ServesLast ttl before key now e since := by
  obtain ⟨since, hcomputed, hkept, hlast⟩ := h.last he
  have httl : ttl ≠ 0 := by
    rintro rfl
    exact Nat.not_lt_zero _ (of_decide_eq_true hfresh)
  exact ⟨since, ⟨hcomputed, (isFresh_iff httl).mp hfresh, hkept⟩, fun e' since' h' => hlast e' since' h'.computed⟩

/-- The answer of a `get` after some operations, on a clock that does not go back. -/
theorem answer_get (hclock : ((empty ttl : Cache α).readings (before ++ [.get key now computed])).Pairwise (· ≤ ·)) :
    (∃ e since, ServesLast ttl before key now e since ∧
      ((after ttl before).step (.get key now computed)).1 = .got (.ok e.value) false) ∨
    ((∀ e since, ¬Serves ttl before key now e since) ∧
      ((after ttl before).step (.get key now computed)).1 = .got computed.outcome true) := by
  rw [readings_snoc] at hclock
  obtain ⟨hbefore, -, hlater⟩ := List.pairwise_append.mp hclock
  have h := remembers ttl before hbefore
  have hnow : ∀ t ∈ (empty ttl : Cache α).readings before, t ≤ now := fun t ht => hlater t ht now now_mem_readings
  rcases step_get_cases (after ttl before) key now computed with ⟨e, he, hfresh, hstep⟩ | ⟨hstale, stale, hmiss⟩
  · rw [ttl_after] at hfresh
    obtain ⟨since, hserves⟩ := h.servesLast_of_fresh he hfresh
    exact Or.inl ⟨e, since, hserves, congrArg Prod.fst hstep⟩
  · refine Or.inr ⟨fun e since hserves => ?_, ?_⟩
    · obtain ⟨e', he', hfresh⟩ := h.fresh_of_serves hnow hserves
      have hold := hstale e' he'
      rw [ttl_after, hfresh] at hold
      cases hold
    · rcases hmiss with ⟨err, hout, hstep⟩ | ⟨v, hout, -, hstep⟩ | ⟨v, hout, -, hstep⟩ <;> rw [hstep, hout]

end Serves

/-- On a clock that does not go back, a `get` is answered without computing exactly when its key was computed
    less than the time to live ago and not dropped since, and then the answer is the value computed last. -/
theorem get_computes_iff (ttl : Nat) (before : List (Op ε α)) (key : String) (now : Instant)
    (computed : Computed ε α) (rest : List (Op ε α))
    (hclock : ((empty ttl : Cache α).readings (before ++ .get key now computed :: rest)).Pairwise (· ≤ ·)) :
    ∃ result called,
      ((empty ttl : Cache α).run (before ++ .get key now computed :: rest)).1[before.length]? =
        some (.got result called) ∧
      (called = false ↔ ∃ e since, Serves ttl before key now e since) ∧
      (called = false → ∃ e since, ServesLast ttl before key now e since ∧ result = .ok e.value) ∧
      (called = true → result = computed.outcome) ∧
      (ttl = 0 → called = true) := by
  have hreply : ((empty ttl : Cache α).run (before ++ .get key now computed :: rest)).1[before.length]? =
      some ((after ttl before).step (.get key now computed)).1 := by
    rw [run_append, List.getElem?_append_right (Nat.le_of_eq (length_run _ before)), length_run, Nat.sub_self]
    rfl
  rw [List.append_cons, readings_append] at hclock
  rw [hreply]
  rcases answer_get (List.pairwise_append.mp hclock).1 with ⟨e, since, hlast, hstep⟩ | ⟨hno, hstep⟩
  · refine ⟨.ok e.value, false, congrArg some hstep, ?_, fun _ => ⟨e, since, hlast, rfl⟩, fun h => (nomatch h), ?_⟩
    · exact ⟨fun _ => ⟨e, since, hlast.toServes⟩, fun _ => rfl⟩
    · rintro rfl
      exact absurd hlast.toServes not_serves_zero
  · refine ⟨computed.outcome, true, congrArg some hstep, ?_, fun h => (nomatch h), fun _ => rfl, fun _ => rfl⟩
    exact ⟨fun h => (nomatch h), fun ⟨e, since, h⟩ => absurd h (hno e since)⟩

/-- After a failure, a computation that ends at the moment 3, a reading and a purge, the value is still there at
    the moment 12. -/
theorem get_computes_iff_nine_later :
    ∃ before : List (Op String Nat),
      ((empty 10 : Cache Nat).readings (before ++ [.get "a" 12 ⟨.ok 2, 12⟩])).Pairwise (· ≤ ·) ∧
      ∃ e since, ServesLast 10 before "a" 12 e since ∧ e.value = 1 := by
  refine ⟨[.get "a" 0 ⟨.error "no", 0⟩, .get "a" 1 ⟨.ok 1, 3⟩, .get "a" 8 ⟨.ok 2, 8⟩, .invalidate "b", .purge 9],
    by decide, ?_⟩
  obtain ⟨result, called, hget, -, hlast, -, -⟩ := get_computes_iff 10
    [.get "a" 0 ⟨.error "no", 0⟩, .get "a" 1 ⟨.ok 1, 3⟩, .get "a" 8 ⟨.ok 2, 8⟩, .invalidate "b", .purge 9]
    "a" 12 ⟨.ok 2, 12⟩ [] (by decide)
  obtain ⟨hresult, hcalled⟩ := Reply.got.inj (Option.some.inj (hget.symm.trans (b := some (.got (.ok 1) false)) rfl))
  obtain ⟨e, since, hserves, hvalue⟩ := hlast hcalled
  exact ⟨e, since, hserves, (Except.ok.inj (hresult.symm.trans hvalue)).symm⟩

end EntityQuery.Cache
