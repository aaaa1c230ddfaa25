import EntityQuery.Draft

/-! # Drafts slot by slot

Each event is about one slot of a draft. The last event of a slot that has something to say decides what the
draft holds there, whatever stands between the events of other slots (`Draft.holds_ofEvents`). A condition
whose operand does not suit its operator has nothing to say; a mark of negation is never heard. -/

namespace EntityQuery

/-- The slots of a draft. -/
inductive Draft.Slot
  | entity
  | fields
  | sort
  | skip
  | limit
  | condition
  deriving DecidableEq, Repr

/-- What a slot can hold. -/
abbrev Draft.Slot.Content : Draft.Slot → Type
  | .entity => String
  | .fields => List String
  | .sort => List SortKey
  | .skip => UInt64
  | .limit => UInt64
  | .condition => Condition

namespace Event
open Draft

def slot : Event → Slot
  | .entity _ => .entity
  | .fields _ => .fields
  | .sort _ => .sort
  | .skip _ => .skip
  | .limit _ => .limit
  | .condition .. => .condition

/-- The event without its mark of negation. -/
def unmarked : Event → Event
  | .condition field operator operand _ => .condition field operator operand false
  | e => e

/-- What an event tells about a slot. A range needs a pair of bounds, and nothing else may have one. -/
def tells : (s : Slot) → Event → Option s.Content
  | .entity, .entity name => some name
  | .fields, .fields names => some names
  | .sort, .sort keys => some keys
  | .skip, .skip count => some count
  | .limit, .limit count => some count
  | .condition, .condition field operator operand _ =>
    if operator = .between ↔ operand.isPair = true then some { field, operator, operand } else none
  | _, _ => none

/-- What the last of the events that tell something about a slot tells. -/
def lastTold (s : Slot) (events : List Event) : Option s.Content :=
  (events.filterMap (tells s)).getLast?

/-- The events of a slot in their order, without their marks of negation. -/
def ofSlot (s : Slot) (events : List Event) : List Event :=
  (events.filter (·.slot = s)).map unmarked

theorem tells_unmarked (s : Slot) (e : Event) : e.unmarked.tells s = e.tells s := by
  cases s <;> cases e <;> rfl

theorem tells_eq_none {s : Slot} {e : Event} (h : e.slot ≠ s) : e.tells s = none := by
  cases s <;> cases e <;> first | rfl | exact absurd rfl h

theorem lastTold_cons (s : Slot) (e : Event) (events : List Event) :
    lastTold s (e :: events) = (lastTold s events).or (e.tells s) := by
  rw [lastTold, List.filterMap_cons]
  cases e.tells s with
  | none => exact Option.or_none.symm
  | some x =>
    rw [List.getLast?_cons, lastTold]
    cases (events.filterMap (tells s)).getLast? <;> rfl

/-- What was said last about a slot depends on the events of the slot alone. -/
theorem lastTold_ofSlot (s : Slot) (events : List Event) : lastTold s (ofSlot s events) = lastTold s events := by
  induction events with
  | nil => rfl
  | cons e events ih =>
    rw [lastTold_cons, ← ih]
    by_cases hs : e.slot = s
    · rw [ofSlot, List.filter_cons_of_pos (by simpa using hs), List.map_cons, lastTold_cons, tells_unmarked]
      rfl
    · rw [ofSlot, List.filter_cons_of_neg (by simpa using hs), tells_eq_none hs, Option.or_none]
      rfl

end Event

/-! ### What a draft holds -/

namespace Draft
open Event

def holds : (s : Slot) → Draft → Option s.Content
  | .entity, d => d.entity
  | .fields, d => some d.fields
  | .sort, d => some d.sorts
  | .skip, d => some d.skip
  | .limit, d => some d.limit
  | .condition, d => d.condition

theorem make?_eq (field : String) (operator : Operator) (operand : Value) :
    Condition.make? field operator operand =
      if operator = .between ↔ operand.isPair = true then some { field, operator, operand } else none := by
  have hiff : (operator.isRange = operand.isPair) ↔ (operator = .between ↔ operand.isPair = true) := by
    rw [← Operator.isRange_iff, Bool.eq_iff_iff]
  rw [Condition.make?]
  simp only [hiff]

/-- An event overwrites what it is about, if it tells anything, and leaves the rest. -/
theorem holds_add (s : Slot) (d : Draft) (e : Event) : (d.add e).holds s = (e.tells s).or (d.holds s) := by
  cases e with
  | condition field operator operand negated =>
    cases s with
    -- The only event that may be refused: its slot keeps what it held before.
    | condition =>
      show (Condition.make? field operator operand).or d.condition = _
      rw [make?_eq]
      rfl
    | _ => rfl
  | _ => cases s <;> rfl

theorem holds_foldl (s : Slot) (events : List Event) (d : Draft) :
    (events.foldl add d).holds s = (lastTold s events).or (d.holds s) := by
  induction events generalizing d with
  | nil => rfl
  | cons e events ih => rw [List.foldl_cons, ih, holds_add, lastTold_cons, Option.or_assoc]

theorem holds_ofEvents (s : Slot) (events : List Event) :
    (ofEvents events).holds s = (lastTold s events).or (empty.holds s) :=
  holds_foldl s events empty

theorem eq_of_holds {d d' : Draft} (h : ∀ s, d.holds s = d'.holds s) : d = d' := by
  obtain ⟨entity, fields, sorts, skip, limit, condition⟩ := d
  obtain ⟨entity', fields', sorts', skip', limit', condition'⟩ := d'
  rw [Draft.mk.injEq]
  exact ⟨h .entity, Option.some.inj (h .fields), Option.some.inj (h .sort), Option.some.inj (h .skip),
    Option.some.inj (h .limit), h .condition⟩

theorem ofEvents_congr {events events' : List Event} (h : ∀ s, ofSlot s events = ofSlot s events') :
    ofEvents events = ofEvents events' := by
  apply eq_of_holds
  intro s
  rw [holds_ofEvents, holds_ofEvents, ← lastTold_ofSlot, h, lastTold_ofSlot]

end Draft

/-! ### The query of some events -/

/-- The query that reads rows as the events of each slot last said. -/
structure SelectQuery.GatheredFrom (events : List Event) (q : SelectQuery) : Prop where
  entity : Event.lastTold .entity events = some q.entity
  fields : q.fields = (Event.lastTold .fields events).getD []
  sorts : q.sorts = (Event.lastTold .sort events).getD []
  skip : q.skip = (Event.lastTold .skip events).getD 0
  limit : q.limit = (Event.lastTold .limit events).getD 0
  condition : q.condition = Event.lastTold .condition events

/-- The query that deletes rows as the events of the entity and of the condition last said. -/
structure DeleteQuery.GatheredFrom (events : List Event) (q : DeleteQuery) : Prop where
  entity : Event.lastTold .entity events = some q.entity
  condition : q.condition = Event.lastTold .condition events

/-- The query is of the given form, and holds what the events last said. -/
def Query.GatheredFrom (events : List Event) : Kind → Query → Prop
  | .select, .select q => q.GatheredFrom events
  | .delete, .delete q => q.GatheredFrom events
  | _, _ => False

namespace Draft
open Event
variable {d : Draft} {events : List Event} {kind : Kind} {name : String} {q : Query}

/-- The query of the given form that a draft makes for an entity. -/
def queryOf (d : Draft) : Kind → String → Query
  | .select, entity =>
    .select
      { entity
        fields := d.fields
        sorts := d.sorts
        skip := d.skip
        limit := d.limit
        condition := d.condition }
  | .delete, entity => .delete { entity, condition := d.condition }

theorem finish_eq (d : Draft) (kind : Kind) :
    d.finish kind = (d.entityName.map (d.queryOf kind)).mapError (·.inText "") := by
  cases kind with
  | select =>
    rw [finish, toQuery, toSelect]
    cases d.entityName <;> rfl
  | delete =>
    rw [finish, toQuery, toDelete]
    cases d.entityName <;> rfl

theorem finish_of_name (hd : d.entity = some name) (hne : name ≠ "") :
    d.finish kind = .ok (d.queryOf kind name) := by
  have hname : d.entityName = .ok name := by
    rw [entityName, hd]
    exact if_neg (mt String.isEmpty_iff.mp hne)
  rw [finish_eq, hname]
  rfl

theorem finish_of_nameless (hd : ∀ name, d.entity = some name → name = "") :
    d.finish kind = .error (.malformedAt "" 0 "Expected entity name") := by
  have hname : d.entityName = .error { offset := 0, cause := .missingEntity } := by
    rw [entityName]
    cases hentity : d.entity with
    | none => rfl
    | some name => exact if_pos (String.isEmpty_iff.mpr (hd name hentity))
  rw [finish_eq, hname]
  rfl

theorem entity_ofEvents (events : List Event) : (ofEvents events).entity = lastTold .entity events :=
  (holds_ofEvents .entity events).trans Option.or_none

theorem condition_ofEvents (events : List Event) : (ofEvents events).condition = lastTold .condition events :=
  (holds_ofEvents .condition events).trans Option.or_none

/-- A slot that is never open holds what was said last, or else what it holds in an empty draft. -/
theorem eq_getD_of_holds {s : Slot} {x y : s.Content} (hx : (ofEvents events).holds s = some x)
    (hy : empty.holds s = some y) : x = (lastTold s events).getD y := by
  rw [holds_ofEvents, hy] at hx
  cases h : lastTold s events with
  | none => simpa [h] using hx.symm
  | some z => simpa [h] using hx.symm

theorem gatheredFrom_queryOf (kind : Kind) (h : lastTold .entity events = some name) :
    ((ofEvents events).queryOf kind name).GatheredFrom events kind := by
  cases kind with
  | select =>
    exact
      { entity := h
        fields := eq_getD_of_holds (s := .fields) rfl rfl
        sorts := eq_getD_of_holds (s := .sort) rfl rfl
        skip := eq_getD_of_holds (s := .skip) rfl rfl
        limit := eq_getD_of_holds (s := .limit) rfl rfl
        condition := condition_ofEvents events }
  | delete => exact { entity := h, condition := condition_ofEvents events }

end Draft

namespace Query
variable {events : List Event} {kind : Kind} {q q' : Query}

theorem GatheredFrom.entity_eq (h : q.GatheredFrom events kind) : Event.lastTold .entity events = some q.entity := by
  cases kind <;> cases q <;> first | exact h.entity | exact h.elim

/-- The events leave one query of each form. -/
theorem GatheredFrom.unique (h : q.GatheredFrom events kind) (h' : q'.GatheredFrom events kind) : q = q' := by
  have hentity : q.entity = q'.entity := Option.some.inj (h.entity_eq.symm.trans h'.entity_eq)
  -- No events leave a query of a form other than the one that is asked for.
  cases kind <;> cases q <;> cases q' <;> try contradiction
  case select q q' =>
    obtain ⟨-, hfields, hsorts, hskip, hlimit, hcondition⟩ := h
    obtain ⟨-, hfields', hsorts', hskip', hlimit', hcondition'⟩ := h'
    rw [Query.select.injEq, SelectQuery.mk.injEq]
    exact ⟨hentity, hfields.trans hfields'.symm, hsorts.trans hsorts'.symm, hskip.trans hskip'.symm,
      hlimit.trans hlimit'.symm, hcondition.trans hcondition'.symm⟩
  case delete q q' =>
    rw [Query.delete.injEq, DeleteQuery.mk.injEq]
    exact ⟨hentity, h.condition.trans h'.condition.symm⟩

end Query

namespace Draft
open Event

/-- Some events make a query exactly when the last entity has a name. Each slot of the query is what the last
    event with something to say about it says, and events of other slots and marks of negation change nothing. -/
theorem finish_ofEvents (events : List Event) (kind : Kind) :
    (∀ q, (ofEvents events).finish kind = .ok q ↔ q.GatheredFrom events kind ∧ q.entity ≠ "") ∧
    ((∃ q, (ofEvents events).finish kind = .ok q) ↔ ∃ name, lastTold .entity events = some name ∧ name ≠ "") ∧
    (∀ e, (ofEvents events).finish kind = .error e → e = .malformedAt "" 0 "Expected entity name") ∧
    ∀ events', (∀ s, ofSlot s events' = ofSlot s events) →
      (ofEvents events').finish kind = (ofEvents events).finish kind := by
  have congr : ∀ events', (∀ s, ofSlot s events' = ofSlot s events) →
      (ofEvents events').finish kind = (ofEvents events).finish kind :=
    fun events' h => congrArg (·.finish kind) (ofEvents_congr h)
  by_cases hname : ∃ name, lastTold .entity events = some name ∧ name ≠ ""
  · obtain ⟨name, hlast, hne⟩ := hname
    have hgathered := gatheredFrom_queryOf kind hlast
    have hentity : ((ofEvents events).queryOf kind name).entity = name :=
      Option.some.inj (hgathered.entity_eq.symm.trans hlast)
    rw [finish_of_name ((entity_ofEvents events).trans hlast) hne] at *
    refine ⟨fun q => ⟨?_, ?_⟩, ?_, ?_, congr⟩
    · rintro ⟨⟩
      exact ⟨hgathered, hentity.symm ▸ hne⟩
    · rintro ⟨hq, -⟩
      exact congrArg Except.ok (hgathered.unique hq)
    · exact iff_of_true ⟨_, rfl⟩ ⟨name, hlast, hne⟩
    · rintro e ⟨⟩
  · have hnameless : ∀ name, (ofEvents events).entity = some name → name = "" := by
      intro name hentity
      refine Decidable.byContradiction fun hne => hname ⟨name, ?_, hne⟩
      rw [← entity_ofEvents, hentity]
    rw [finish_of_nameless hnameless] at *
    refine ⟨fun q => ⟨?_, ?_⟩, ?_, ?_, congr⟩
    · rintro ⟨⟩
    · rintro ⟨hq, hne⟩
      exact absurd ⟨q.entity, hq.entity_eq, hne⟩ hname
    · exact iff_of_false (fun ⟨_, h⟩ => nomatch h) hname
    · rintro e ⟨⟩
      rfl

/-- A condition counts although it is marked as negated and a range without bounds comes after it, and an entity
    without a name gives way to a later one; the sort key and the skip stand in different places. -/
theorem finish_ofEvents_reordered :
    let range (negated : Bool) : Event := .condition "b" .between .null negated
    let below (negated : Bool) : Event := .condition "a" .less (.number (.integer 5)) negated
    let events := [.entity "", below true, .skip 1, .sort [.asc "a"], range false, .entity "T"]
    let events' := [below false, .sort [.asc "a"], range true, .entity "", .entity "T", .skip 1]
    (∀ s, ofSlot s events' = ofSlot s events) ∧ (ofEvents events').finish .delete =
      .ok (.delete { entity := "T", condition := some ⟨"a", .less, .number (.integer 5)⟩ }) := by
  intro range below events events'
  have hslots : ∀ s, ofSlot s events' = ofSlot s events := by
    intro s
    cases s <;> rfl
  obtain ⟨hok, -, -, hcongr⟩ := finish_ofEvents events .delete
  exact ⟨hslots, (hcongr events' hslots).trans ((hok _).mpr ⟨⟨rfl, rfl⟩, by decide⟩)⟩

end Draft

end EntityQuery
