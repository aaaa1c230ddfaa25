import EntityQuery.CachedCompiler
import EntityQuery.Proofs.Cache.History

/-! # A cache cannot be told from its function

A cache in front of one function gives what the function gives, whatever the clock shows, also when it is set
back: every entry holds the value of its key (`Holds`), each request keeps it so, and a `get` that finds an
entry therefore answers as one that computes. A compiler with a cache is such a cache. -/

namespace EntityQuery.Cache
variable {ε α : Type}

/-! ### Requests -/

/-- A request to a cache in front of one function. The clock shows `now` when it begins, and `finished` when a
    value that it asks for would be computed. -/
inductive Request
  | get (key : String) (now finished : Instant)
  | purge (now : Instant)
  | invalidate (key : String)
  | clear

/-- The operation of a request: what is computed for a key is what the function gives. -/
def Request.op (compute : String → Except ε α) : Request → Op ε α
  | .get key now finished => .get key now { outcome := compute key, finished }
  | .purge now => .purge now
  | .invalidate key => .invalidate key
  | .clear => .clear

/-- What the function gives for the key of a request, if it has one that asks for a value. -/
def Request.value? (compute : String → Except ε α) : Request → Option (Except ε α)
  | .get key _ _ => some (compute key)
  | _ => none

/-- The value that was answered, if one was asked for. -/
def Reply.value? : Reply ε α → Option (Except ε α)
  | .got result _ => some result
  | _ => none

/-! ### The invariant -/

/-- Each entry holds what the function gives for its key, and no key has two of them. -/
structure Holds (compute : String → Except ε α) (c : Cache α) : Prop where
  values : ∀ key e, (key, e) ∈ c.entries → compute key = .ok e.value
  distinct : c.Distinct

section Step
variable {compute : String → Except ε α} {c : Cache α}

theorem holds_empty (ttl : Nat) : Holds compute (empty ttl) :=
  ⟨fun _ _ h => absurd h List.not_mem_nil, List.nodup_nil⟩

theorem mem_entries_of_find? {key : String} {e : Entry α} (h : c.find? key = some e) : (key, e) ∈ c.entries := by
  obtain ⟨before, after, hentries, -⟩ := List.lookup_eq_some_iff.mp h
  rw [hentries]
  exact List.mem_append_right before List.mem_cons_self

theorem mem_store {key : String} {value : α} {now : Instant} {x : String × Entry α}
    (h : x ∈ (c.store key value now).entries) : x = (key, { value, created := now }) ∨ x ∈ c.entries := by
  rcases List.mem_cons.mp h with h | h
  · exact Or.inl h
  · exact Or.inr (List.mem_filter.mp h).1

/-- A `get` answers with the value of its key, whether it finds an entry or computes. -/
theorem Holds.get (h : Holds compute c) (key : String) (now finished : Instant) :
    (∃ called, (c.step (.get key now { outcome := compute key, finished })).1 = .got (compute key) called) ∧
      ∀ key' e, (key', e) ∈ (c.step (.get key now { outcome := compute key, finished })).2.entries →
        compute key' = .ok e.value := by
  rcases step_get_cases c key now { outcome := compute key, finished } with
    ⟨e, he, -, hstep⟩ | ⟨-, stale, ⟨err, hout, hstep⟩ | ⟨v, hout, -, hstep⟩ | ⟨v, hout, -, hstep⟩⟩ <;> rw [hstep]
  · have hvalue := h.values key e (mem_entries_of_find? he)
    exact ⟨⟨false, by rw [hvalue]⟩, h.values⟩
  · have hout : compute key = .error err := hout
    exact ⟨⟨true, by rw [hout]⟩, h.values⟩
  · have hout : compute key = .ok v := hout
    exact ⟨⟨true, by rw [hout]⟩, h.values⟩
  · have hout : compute key = .ok v := hout
    refine ⟨⟨true, by rw [hout]⟩, fun key' e he => ?_⟩
    rcases mem_store he with heq | he
    · obtain ⟨rfl, rfl⟩ := Prod.mk.inj heq
      exact hout
    · exact h.values key' e he

theorem Holds.step (h : Holds compute c) (r : Request) : Holds compute (c.step (r.op compute)).2 := by
  refine ⟨?_, distinct_step h.distinct _⟩
  cases r with
  | get key now finished => exact (h.get key now finished).2
  | purge now => exact fun key e he => h.values key e (List.mem_filter.mp he).1
  | invalidate key' => exact fun key e he => h.values key e (List.mem_filter.mp he).1
  | clear => exact fun _ _ he => absurd he List.not_mem_nil

theorem Holds.reply (h : Holds compute c) (r : Request) :
    (c.step (r.op compute)).1.value? = r.value? compute := by
  cases r with
  | get key now finished =>
    obtain ⟨called, hreply⟩ := (h.get key now finished).1
    exact congrArg Reply.value? hreply
  | _ => rfl

/-- What holds of every run: the entries stay right, and each `get` is answered with the value of its key. -/
theorem Holds.run (h : Holds compute c) (requests : List Request) :
    Holds compute (c.run (requests.map (·.op compute))).2 ∧
      (c.run (requests.map (·.op compute))).1.map Reply.value? = requests.map (·.value? compute) := by
  induction requests generalizing c with
  | nil => exact ⟨h, rfl⟩
  | cons r requests ih =>
    obtain ⟨hafter, hreplies⟩ := ih (h.step r)
    exact ⟨hafter, congrArg₂ List.cons (h.reply r) hreplies⟩

end Step

end EntityQuery.Cache

namespace EntityQuery.CachedCompiler
variable {α : Type}

/-! ### Compilers -/

/-- A request to a compiler with a cache. -/
inductive Request
  | compile (input : Option String) (now finished : Instant)
  | purge (now : Instant)
  | clear

/-- Carries out a request, and tells what came of compiling. -/
def step (c : CachedCompiler α) : Request → Option (Except CompileError α) × CachedCompiler α
  | .compile input now finished => let (result, c) := c.compile input now finished; (some result, c)
  | .purge now => (none, (c.purge now).2)
  | .clear => (none, c.clear)

/-- Carries out requests one after the other. -/
def run (c : CachedCompiler α) : List Request → List (Option (Except CompileError α)) × CachedCompiler α
  | [] => ([], c)
  | r :: requests =>
    let (result, c) := c.step r
    let (results, c) := c.run requests
    (result :: results, c)

/-- What a compiler without a cache gives for a request. -/
def Request.result? (compiler : String → Except CompileError α) : Request → Option (Except CompileError α)
  | .compile input _ _ => some (compileGiven compiler input)
  | _ => none

/-- A request is carried out as the compiler without a cache would, and keeps the entries right. -/
theorem step_of_holds {c : CachedCompiler α} (h : c.cache.Holds c.compiler) (r : Request) :
    (c.step r).1 = r.result? c.compiler ∧ (c.step r).2.compiler = c.compiler ∧
      (c.step r).2.cache.Holds c.compiler := by
  cases r with
  | compile input now finished =>
    cases input with
    | none => exact ⟨rfl, rfl, h⟩
    | some text =>
      obtain ⟨called, hreply⟩ := (h.get text now finished).1
      have hresult : (c.compile (some text) now finished).1 = c.compiler text := (Cache.Reply.got.inj hreply).1
      exact ⟨congrArg some hresult, rfl, h.step (.get text now finished)⟩
  | purge now => exact ⟨rfl, rfl, h.step (.purge now)⟩
  | clear => exact ⟨rfl, rfl, h.step .clear⟩

theorem run_of_holds {c : CachedCompiler α} (h : c.cache.Holds c.compiler) (requests : List Request) :
    (c.run requests).1 = requests.map (·.result? c.compiler) := by
  induction requests generalizing c with
  | nil => rfl
  | cons r requests ih =>
    obtain ⟨hresult, hcompiler, hafter⟩ := step_of_holds h r
    rw [← hcompiler] at hafter
    have hresults := ih hafter
    rw [hcompiler] at hresults
    exact congrArg₂ List.cons hresult hresults

theorem run_ofCompiler (compiler : String → Except CompileError α) (ttl : Nat) (requests : List Request) :
    ((ofCompiler compiler ttl).run requests).1 = requests.map (·.result? compiler) :=
  run_of_holds (Cache.holds_empty ttl) requests

/-- A cache in front of a function answers as the function, at every point of every run and on every clock, and
    so does each of the compilers with a cache. -/
theorem run_eq_uncached :
    (∀ {ε α : Type} (compute : String → Except ε α) (ttl : Nat) (requests : List Cache.Request),
      (Cache.after ttl (requests.map (·.op compute))).Holds compute ∧
        ((Cache.empty ttl : Cache α).run (requests.map (·.op compute))).1.map Cache.Reply.value? =
          requests.map (·.value? compute)) ∧
    ∀ (ttl : Nat) (requests : List Request),
      ((any ttl).run requests).1 = requests.map (·.result? EntityQuery.compile) ∧
      ((select ttl).run requests).1 = requests.map (·.result? compileSelect) ∧
      ((delete ttl).run requests).1 = requests.map (·.result? compileDelete) :=
  ⟨fun _ ttl requests => (Cache.holds_empty ttl).run requests, fun ttl requests =>
    ⟨run_ofCompiler _ ttl requests, run_ofCompiler _ ttl requests, run_ofCompiler _ ttl requests⟩⟩

end EntityQuery.CachedCompiler
