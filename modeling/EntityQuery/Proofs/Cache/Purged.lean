import EntityQuery.Proofs.Cache.History

/-! # Purges are not seen

A purge takes away the entries that are too old and nothing else. On a clock that does not go back such an entry
never answers again, so whoever only asks for values sees the same answers and the same counts of hits and misses
with purges and without. Two caches are alike from a moment on (`Alike`) when they have counted the same and have the
same entries that are fresh then; every operation keeps them alike, and a purge of one of them does so too. -/

namespace EntityQuery.Cache
variable {ε α : Type}

/-! ### What a purge takes away -/

/-- What a purge removes from a cache, and what it tells. -/
structure Purges (c : Cache α) (now : Instant) : Prop where
  distinct : c.Distinct
  removed : ∀ key e, (c.purge now).2.find? key = some e ↔ c.find? key = some e ∧ ¬c.ttl ≤ e.age now
  count : (c.purge now).1 = c.entries.countP fun x => c.ttl ≤ x.2.age now
  stats : (c.purge now).2.stats = c.stats
  ttl : (c.purge now).2.ttl = c.ttl

theorem purges {c : Cache α} (h : c.Distinct) (now : Instant) : c.Purges now where
  distinct := h
  removed := by
    intro key e
    rw [find?_purge h, Option.filter_eq_some_iff, Nat.not_le]
    exact and_congr_right fun _ => decide_eq_true_iff
  count := by
    have hcount := List.length_eq_countP_add_countP (fun x : String × Entry α => x.2.isFresh now c.ttl) (l := c.entries)
    have hstale : (fun x : String × Entry α => decide ¬x.2.isFresh now c.ttl = true) =
        fun x => decide (c.ttl ≤ x.2.age now) := by
      funext x
      simp [Entry.isFresh]
    rw [hstale, List.countP_eq_length_filter] at hcount
    exact Nat.sub_eq_of_eq_add' hcount
  stats := rfl
  ttl := rfl

/-! ### What is seen of a run -/

def Op.isPurge : Op ε α → Bool
  | .purge _ => true
  | _ => false

def Reply.answer? : Reply ε α → Option (Except ε α × Bool)
  | .got result called => some (result, called)
  | _ => none

/-- What is seen of an operation by whoever asks for values only. -/
structure Seen (ε α : Type) where
  /-- The answer of a `get`, and whether it was computed. -/
  answer : Option (Except ε α × Bool)
  hits : UInt64
  misses : UInt64

def see (x : Reply ε α × Cache α) : Seen ε α :=
  { answer := x.1.answer?, hits := x.2.stats.hits, misses := x.2.stats.misses }

/-- What is seen of some operations, without the purges among them. -/
def seen (c : Cache α) : List (Op ε α) → List (Seen ε α)
  | [] => []
  | op :: ops => (if op.isPurge then [] else [see (c.step op)]) ++ (c.step op).2.seen ops

def unpurged (ops : List (Op ε α)) : List (Op ε α) :=
  ops.filter (!·.isPurge)

/-- From a moment on, the caches answer alike. -/
structure Alike (t : Instant) (c c' : Cache α) : Prop where
  ttl : c.ttl = c'.ttl
  hits : c.stats.hits = c'.stats.hits
  misses : c.stats.misses = c'.stats.misses
  fresh : ∀ key e, e.isFresh t c.ttl = true → (c.find? key = some e ↔ c'.find? key = some e)

section Alike
variable {c c' : Cache α} {t now : Instant} {op : Op ε α}

theorem Alike.refl (t : Instant) (c : Cache α) : Alike t c c :=
  ⟨rfl, rfl, rfl, fun _ _ _ => Iff.rfl⟩

theorem Alike.purge (h : Alike t c c') (hdistinct : c.Distinct) (ht : t ≤ now) : Alike now (c.purge now).2 c' where
  ttl := h.ttl
  hits := h.hits
  misses := h.misses
  fresh := by
    intro key e hfresh
    rw [((purges hdistinct now).removed key e), ← h.fresh key e (isFresh_mono (Int.le_refl _) ht hfresh)]
    exact and_iff_left (Nat.not_le.mpr (of_decide_eq_true hfresh))

theorem Alike.countHit (h : Alike t c c') : Alike t c.countHit c'.countHit :=
  { h with hits := congrArg (· + 1) h.hits }

theorem Alike.countMiss (h : Alike t c c') (stale stale' : Bool) : Alike t (c.countMiss stale) (c'.countMiss stale') :=
  { h with misses := congrArg (· + 1) h.misses }

theorem Alike.store (h : Alike t c c') (key : String) (value : α) (now : Instant) :
    Alike t (c.store key value now) (c'.store key value now) where
  ttl := h.ttl
  hits := h.hits
  misses := h.misses
  fresh := by
    intro key' e hfresh
    rw [find?_store, find?_store]
    split
    · exact Iff.rfl
    · exact h.fresh key' e hfresh

theorem Alike.keep (h : Alike t c c') (key : String) (computed : Computed ε α) :
    Alike t (c.keep key computed) (c'.keep key computed) := by
  rw [Cache.keep, Cache.keep, ← h.ttl]
  cases computed.outcome with
  | error _ => exact h
  | ok v =>
    show Alike t (if c.ttl = 0 then _ else _) (if c.ttl = 0 then _ else _)
    split
    · exact h
    · exact h.store key v computed.finished

/-- A `get` that is not before the moment is answered alike, from the same entry or by the same computation. -/
theorem Alike.get (h : Alike t c c') (ht : t ≤ now) (key : String) (computed : Computed ε α) :
    (c.step (.get key now computed)).1 = (c'.step (.get key now computed)).1 ∧
      Alike t (c.step (.get key now computed)).2 (c'.step (.get key now computed)).2 := by
  have hfresh : ∀ e, e.isFresh now c.ttl = true → (c.find? key = some e ↔ c'.find? key = some e) :=
    fun e he => h.fresh key e (isFresh_mono (Int.le_refl _) ht he)
  by_cases hfound : ∃ e, c.find? key = some e ∧ e.isFresh now c.ttl = true
  · obtain ⟨e, he, hlive⟩ := hfound
    rw [step_get_fresh he hlive, step_get_fresh ((hfresh e hlive).mp he) (h.ttl ▸ hlive)]
    exact ⟨rfl, h.countHit⟩
  · have hstale : ∀ e, c.find? key = some e → e.isFresh now c.ttl = false :=
      fun e he => Bool.eq_false_iff.mpr fun hlive => hfound ⟨e, he, hlive⟩
    have hstale' : ∀ e, c'.find? key = some e → e.isFresh now c'.ttl = false := by
      intro e he
      rw [← h.ttl, Bool.eq_false_iff]
      exact fun hlive => hfound ⟨e, (hfresh e hlive).mpr he, hlive⟩
    rw [step_get_stale hstale, step_get_stale hstale']
    exact ⟨rfl, (h.countMiss _ _).keep key computed⟩

theorem Alike.invalidate (h : Alike t c c') (key : String) : Alike t (c.invalidate key).2 (c'.invalidate key).2 where
  ttl := h.ttl
  hits := h.hits
  misses := h.misses
  fresh := by
    intro key' e hfresh
    rw [find?_invalidate, find?_invalidate]
    split
    · exact Iff.rfl
    · exact h.fresh key' e hfresh

theorem Alike.clear (h : Alike t c c') : Alike t c.clear c'.clear := by
  rw [Cache.clear, Cache.clear, h.ttl]
  exact .refl t _

theorem Alike.see_eq {reply reply' : Reply ε α} (h : Alike t c c') (hreply : reply.answer? = reply'.answer?) :
    see (reply, c) = see (reply', c') := by
  rw [see, see, hreply, h.hits, h.misses]

/-- Operations other than purges keep caches alike, and the same is seen of them. -/
theorem Alike.step (h : Alike t c c') (hop : op.isPurge = false)
    (hreads : ∀ s ∈ op.readings c.ttl (c.step op).1, t ≤ s) :
    see (c.step op) = see (c'.step op) ∧ Alike t (c.step op).2 (c'.step op).2 := by
  cases op with
  | get key now computed =>
    obtain ⟨hreply, halike⟩ := h.get (hreads now now_mem_readings) key computed
    exact ⟨halike.see_eq (congrArg Reply.answer? hreply), halike⟩
  | purge now => cases hop
  | invalidate key => exact ⟨(h.invalidate key).see_eq rfl, h.invalidate key⟩
  | clear => exact ⟨h.clear.see_eq rfl, h.clear⟩

/-- The same is seen of a run as of the run without its purges. -/
theorem Alike.seen_eq (h : Alike t c c') (hdistinct : c.Distinct) {ops : List (Op ε α)}
    (hclock : (c.readings ops).Pairwise (· ≤ ·)) (hlater : ∀ s ∈ c.readings ops, t ≤ s) :
    c.seen ops = c'.seen (unpurged ops) := by
  induction ops generalizing t c c' with
  | nil => rfl
  | cons op ops ih =>
    rw [readings] at hclock hlater
    obtain ⟨-, hrest, hnext⟩ := List.pairwise_append.mp hclock
    have hdistinct' := distinct_step hdistinct op
    cases hop : op.isPurge with
    | true =>
      cases op with
      | purge now =>
        -- From here on the caches are compared at the moment of the purge.
        have hnow : now ∈ (Op.purge now : Op ε α).readings c.ttl (c.step (.purge now : Op ε α)).1 :=
          List.mem_cons_self
        have halike := h.purge hdistinct (hlater now (List.mem_append_left _ hnow))
        exact ih halike hdistinct' hrest fun s hs => hnext now hnow s hs
      | _ => cases hop
    | false =>
      obtain ⟨hsee, halike⟩ := h.step hop fun s hs => hlater s (List.mem_append_left _ hs)
      have hseen := ih halike hdistinct' hrest fun s hs => hlater s (List.mem_append_right _ hs)
      have hops : unpurged (op :: ops) = op :: unpurged ops := List.filter_cons_of_pos (by rw [hop]; rfl)
      rw [hops, seen, seen, hop, hsee, hseen]

end Alike

theorem seen_unpurged (ttl : Nat) {ops : List (Op ε α)}
    (hclock : ((empty ttl : Cache α).readings ops).Pairwise (· ≤ ·)) :
    (empty ttl : Cache α).seen ops = (empty ttl : Cache α).seen (unpurged ops) := by
  have hfirst : ∃ t, ∀ s ∈ (empty ttl : Cache α).readings ops, t ≤ s := by
    cases h : (empty ttl : Cache α).readings ops with
    | nil => exact ⟨0, fun s hs => absurd hs List.not_mem_nil⟩
    | cons t later =>
      rw [h] at hclock
      exact ⟨t, List.forall_mem_cons.mpr ⟨Int.le_refl t, (List.pairwise_cons.mp hclock).1⟩⟩
  obtain ⟨t, hlater⟩ := hfirst
  exact (Alike.refl t (empty ttl)).seen_eq List.nodup_nil hclock hlater

/-- A purge takes away the entries that are too old and nothing else, at every point of every run and on every clock.
    Two runs on a clock that does not go back are seen alike when they differ in their purges only. -/
theorem purge_unseen (ttl : Nat) :
    (∀ (ops : List (Op ε α)) (now : Instant), (after ttl ops).Purges now) ∧
    ∀ ops ops' : List (Op ε α), unpurged ops = unpurged ops' →
      ((empty ttl : Cache α).readings ops).Pairwise (· ≤ ·) → ((empty ttl : Cache α).readings ops').Pairwise (· ≤ ·) →
        (empty ttl : Cache α).seen ops = (empty ttl : Cache α).seen ops' := by
  refine ⟨fun ops now => purges (distinct_after ttl ops) now, fun ops ops' hops hclock hclock' => ?_⟩
  rw [seen_unpurged ttl hclock, seen_unpurged ttl hclock', hops]

/-- A purge that takes two entries away is not seen, though one of them cannot be invalidated any more and the other
    is not found too old. -/
theorem purge_unseen_between :
    let stored : List (Op String Nat) := [.get "a" 0 ⟨.ok 1, 1⟩, .get "b" 2 ⟨.ok 2, 3⟩]
    let later : List (Op String Nat) := [.invalidate "a", .get "b" 14 ⟨.error "no", 14⟩]
    (empty 10 : Cache Nat).seen (stored ++ .purge 13 :: later) =
        (empty 10 : Cache Nat).seen (.purge 0 :: stored ++ later) ∧
      (after 10 (stored ++ .purge 13 :: later)).stats = { hits := 0, misses := 3, expirations := 0 } ∧
      (after 10 (.purge 0 :: stored ++ later)).stats = { hits := 0, misses := 3, expirations := 1 } := by
  intro stored later
  exact ⟨(purge_unseen 10).2 (stored ++ .purge 13 :: later) (.purge 0 :: stored ++ later) rfl (by decide) (by decide),
    rfl, rfl⟩

end EntityQuery.Cache
