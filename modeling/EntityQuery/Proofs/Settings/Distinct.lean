import EntityQuery.Settings.Document.Reader

/-! # Names in a document are distinct

A document that is read has no name twice in any of its tables, whichever way the table is written: under a header,
with dotted keys, inline, or as one of a list (`distinct_of_read`). A tree is filled by giving a name its value where it
stands or behind the others, and this keeps names distinct. -/

namespace EntityQuery.Settings

/-- No table in a tree has a name twice. -/
inductive Node.Distinct : Node → Prop
  | text {value : String} : Distinct (.text value)
  | integer {value : Int} : Distinct (.integer value)
  | float {value : Float} : Distinct (.float value)
  | boolean {value : Bool} : Distinct (.boolean value)
  | list {items : List Node} : (∀ n ∈ items, n.Distinct) → Distinct (.list items)
  | table {ms : Members} : (ms.map Prod.fst).Nodup → (∀ m ∈ ms, m.2.Distinct) → Distinct (.table ms)

/-! ### Members -/

section Members
variable {α : Type} {name : String} {value : α} {ms : List (String × α)}

theorem names_put (name : String) (value : α) (ms : List (String × α)) :
    (put name value ms).map Prod.fst =
      if name ∈ ms.map Prod.fst then ms.map Prod.fst else ms.map Prod.fst ++ [name] := by
  induction ms with
  | nil => rfl
  | cons m ms ih =>
    obtain ⟨n, v⟩ := m
    by_cases h : n = name
    · simp [put, h]
    · simp only [put, h, if_false, List.map_cons, ih, List.mem_cons, Ne.symm h, false_or]
      split <;> rfl

theorem nodup_put (h : (ms.map Prod.fst).Nodup) : ((put name value ms).map Prod.fst).Nodup := by
  rw [names_put]
  split
  · exact h
  · rename_i hname
    refine List.nodup_append.mpr ⟨h, List.pairwise_singleton _ name, fun a ha b hb => ?_⟩
    rw [List.mem_singleton.mp hb]
    rintro rfl
    exact hname ha

theorem mem_put {m : String × α} (h : m ∈ put name value ms) : m = (name, value) ∨ m ∈ ms := by
  induction ms with
  | nil => exact Or.inl (List.mem_singleton.mp h)
  | cons m' ms ih =>
    obtain ⟨n, v⟩ := m'
    rw [put] at h
    split at h
    · rename_i hn
      rcases List.mem_cons.mp h with rfl | h
      · exact Or.inl (by rw [hn])
      · exact Or.inr (List.mem_cons_of_mem _ h)
    · rcases List.mem_cons.mp h with rfl | h
      · exact Or.inr List.mem_cons_self
      · exact (ih h).imp_right (List.mem_cons_of_mem _)

theorem mem_of_lookup (h : ms.lookup name = some value) : (name, value) ∈ ms := by
  obtain ⟨front, back, rfl, -⟩ := List.lookup_eq_some_iff.mp h
  exact List.mem_append_right _ List.mem_cons_self

theorem put_of_notMem (h : name ∉ ms.map Prod.fst) :
    put name value ms = ms ++ [(name, value)] := by
  induction ms with
  | nil => rfl
  | cons m ms ih =>
    obtain ⟨n, v⟩ := m
    obtain ⟨hn, hms⟩ := not_or.mp (mt List.mem_cons.mpr h)
    rw [put, if_neg (Ne.symm hn), ih hms, List.cons_append]

theorem lookup_eq_none (h : name ∉ ms.map Prod.fst) : ms.lookup name = none := by
  rw [List.lookup_eq_none_iff]
  intro m hm
  rw [bne_iff_ne]
  rintro rfl
  exact h (List.mem_map.mpr ⟨m, hm, rfl⟩)

end Members

theorem Node.Distinct.put {ms : Members} (h : (Node.table ms).Distinct) {name : String} {value : Node}
    (hvalue : value.Distinct) : (Node.table (Settings.put name value ms)).Distinct := by
  cases h with
  | table hnames hms =>
    refine .table (nodup_put hnames) fun m hm => ?_
    rcases mem_put hm with rfl | hm
    · exact hvalue
    · exact hms m hm

end EntityQuery.Settings

namespace EntityQuery.Settings.Document

/-! ### Tables under construction -/

theorem itemsToMembers_eq (items : Items) : itemsToMembers items = items.map fun m => (m.1, m.2.toNode) := by
  induction items with
  | nil => rfl
  | cons m items ih => rw [itemsToMembers, ih, List.map_cons]

theorem tablesToNodes_eq (tables : List Items) :
    tablesToNodes tables = tables.map fun items => .table (itemsToMembers items) := by
  induction tables with
  | nil => rfl
  | cons items tables ih => rw [tablesToNodes, ih, List.map_cons]

theorem itemsToMembers_put (name : String) (item : Item) (items : Items) :
    itemsToMembers (put name item items) = put name item.toNode (itemsToMembers items) := by
  induction items with
  | nil => rfl
  | cons m items ih =>
    obtain ⟨n, i⟩ := m
    by_cases h : n = name
    · simp [put, itemsToMembers, h]
    · simp [put, itemsToMembers, h, ih]

/-- No table of the tree that a table under construction stands for has a name twice. -/
def Distinct (items : Items) : Prop :=
  (Node.table (itemsToMembers items)).Distinct

section Items
variable {items items' : Items} {name : String} {item : Item}

theorem Distinct.nil : Distinct [] :=
  .table List.nodup_nil fun _ hm => by cases hm

theorem Distinct.put (h : Distinct items) (hitem : item.toNode.Distinct) : Distinct (put name item items) := by
  rw [Distinct, itemsToMembers_put]
  exact Node.Distinct.put h hitem

theorem Distinct.lookup (h : Distinct items) (hitem : items.lookup name = some item) : item.toNode.Distinct := by
  cases h with
  | table _ hms =>
    refine hms (name, item.toNode) ?_
    rw [itemsToMembers_eq]
    exact List.mem_map.mpr ⟨_, mem_of_lookup hitem, rfl⟩

theorem distinct_table {implicit dotted : Bool} :
    (Item.table implicit dotted items).toNode.Distinct ↔ Distinct items := by
  rw [Item.toNode, Distinct]

theorem distinct_tables {earlier : List Items} {last : Items} : (Item.tables earlier last).toNode.Distinct ↔
    (∀ items ∈ earlier, Distinct items) ∧ Distinct last := by
  rw [Item.toNode, tablesToNodes_eq]
  constructor
  · intro h
    cases h with
    | list h =>
      exact ⟨fun items hitems => h _ (List.mem_append_left _ (List.mem_map.mpr ⟨items, hitems, rfl⟩)),
        h _ (List.mem_append_right _ (List.mem_singleton.mpr rfl))⟩
  · rintro ⟨hearlier, hlast⟩
    refine .list fun n hn => ?_
    rcases List.mem_append.mp hn with hn | hn
    · obtain ⟨items, hitems, rfl⟩ := List.mem_map.mp hn
      exact hearlier items hitems
    · rw [List.mem_singleton.mp hn]
      exact hlast

theorem distinct_assign {value : Node} (hvalue : value.Distinct) {isOpen : Bool} {path : List String}
    (h : Distinct items) (hassign : assign value isOpen path items = some items') : Distinct items' := by
  fun_induction assign value isOpen path items generalizing items' with
  | case1 => cases hassign
  | case2 =>
    obtain rfl := Option.some.inj hassign
    exact h.put hvalue
  | case3 => cases hassign
  | case4 isOpen name next path items hnone ih =>
    obtain ⟨inner, hinner, rfl⟩ := Option.map_eq_some_iff.mp hassign
    exact h.put (distinct_table.mpr (ih .nil hinner))
  | case5 isOpen name next path items dotted inner hlookup ih =>
    obtain ⟨inner, hinner, rfl⟩ := Option.map_eq_some_iff.mp hassign
    exact h.put (distinct_table.mpr (ih (distinct_table.mp (h.lookup hlookup)) hinner))
  | case6 isOpen name next path items earlier last hlookup ih =>
    obtain ⟨inner, hinner, rfl⟩ := Option.map_eq_some_iff.mp hassign
    obtain ⟨hearlier, hlast⟩ := distinct_tables.mp (h.lookup hlookup)
    exact h.put (distinct_tables.mpr ⟨hearlier, ih hlast hinner⟩)
  | case7 => cases hassign
  | case8 => cases hassign

/-- The change of one item keeps names distinct. -/
def Keeps (change : Option Item → Option Item) : Prop :=
  ∀ {before : Option Item} {after : Item}, (∀ i ∈ before, i.toNode.Distinct) → change before = some after →
    after.toNode.Distinct

theorem distinct_alter {change : Option Item → Option Item} (hchange : Keeps change) {path : List String}
    (h : Distinct items) (halter : alter change path items = some items') : Distinct items' := by
  fun_induction alter change path items generalizing items' with
  | case1 => cases halter
  | case2 name items =>
    obtain ⟨item, hitem, rfl⟩ := Option.map_eq_some_iff.mp halter
    exact h.put (hchange (fun i hi => h.lookup hi) hitem)
  | case3 name next path items hnone ih =>
    obtain ⟨inner, hinner, rfl⟩ := Option.map_eq_some_iff.mp halter
    exact h.put (distinct_table.mpr (ih .nil hinner))
  | case4 name next path items implicit dotted inner hlookup ih =>
    obtain ⟨inner, hinner, rfl⟩ := Option.map_eq_some_iff.mp halter
    exact h.put (distinct_table.mpr (ih (distinct_table.mp (h.lookup hlookup)) hinner))
  | case5 name next path items earlier last hlookup ih =>
    obtain ⟨inner, hinner, rfl⟩ := Option.map_eq_some_iff.mp halter
    obtain ⟨hearlier, hlast⟩ := distinct_tables.mp (h.lookup hlookup)
    exact h.put (distinct_tables.mpr ⟨hearlier, ih hlast hinner⟩)
  | case6 => cases halter

theorem distinct_assignAll {assignments : List Assignment} (hvalues : ∀ a ∈ assignments, a.2.Distinct)
    (h : Distinct items) (hassign : assignAll assignments items = some items') : Distinct items' := by
  induction assignments generalizing items with
  | nil =>
    obtain rfl := Option.some.inj hassign
    exact h
  | cons a assignments ih =>
    obtain ⟨inner, hinner, hrest⟩ := Option.bind_eq_some_iff.mp hassign
    exact ih (fun a ha => hvalues a (List.mem_cons_of_mem _ ha))
      (distinct_assign (hvalues a List.mem_cons_self) h hinner) hrest

end Items

/-! ### Values -/

theorem distinct_inRange? {n : Int} {node : Node} (h : inRange? n = some node) : node.Distinct := by
  obtain ⟨-, heq⟩ := Option.ite_none_right_eq_some.mp h
  rw [← Option.some.inj heq]
  exact .integer

theorem distinct_float? {cs : List Char} {node : Node} (h : float? cs = some node) : node.Distinct := by
  unfold float? at h
  dsimp only at h
  split at h
  · cases h
    exact .float
  split at h
  · cases h
    exact .float
  obtain ⟨whole, -, h⟩ := Option.bind_eq_some_iff.mp h
  split at h
  · cases h
  obtain ⟨⟨places, after⟩, -, h⟩ := Option.bind_eq_some_iff.mp h
  obtain ⟨exponent, -, h⟩ := Option.bind_eq_some_iff.mp h
  obtain ⟨-, heq⟩ := Option.ite_none_left_eq_some.mp h
  rw [← Option.some.inj heq]
  exact .float

theorem distinct_scalar? {cs : List Char} {node : Node} (h : scalar? cs = some node) : node.Distinct := by
  unfold scalar? at h
  split at h
  · cases h
    exact .boolean
  split at h
  · cases h
    exact .boolean
  rcases Option.or_eq_some_iff.mp h with h | ⟨-, h⟩
  · obtain ⟨ds, -, h⟩ := Option.bind_eq_some_iff.mp h
    exact distinct_inRange? h
  rcases Option.or_eq_some_iff.mp h with h | ⟨-, h⟩
  · unfold based? at h
    split at h
    · obtain ⟨ds, -, h⟩ := Option.bind_eq_some_iff.mp h
      exact distinct_inRange? h
    · obtain ⟨ds, -, h⟩ := Option.bind_eq_some_iff.mp h
      exact distinct_inRange? h
    · obtain ⟨ds, -, h⟩ := Option.bind_eq_some_iff.mp h
      exact distinct_inRange? h
    · cases h
  rcases Option.or_eq_some_iff.mp h with h | ⟨-, h⟩
  · exact distinct_float? h
  · obtain ⟨-, heq⟩ := Option.ite_none_right_eq_some.mp h
    rw [← Option.some.inj heq]
    exact .table (List.pairwise_singleton _ _) fun m hm => List.mem_singleton.mp hm ▸ .text

/-- What is scanned with some fuel has distinct names. -/
structure ScansDistinct (fuel : Nat) : Prop where
  value : ∀ {level cs node rest}, scanValue fuel level cs = some (node, rest) → node.Distinct
  items : ∀ {level cs items rest}, scanItems fuel level cs = some (items, rest) → ∀ n ∈ items, n.Distinct
  assignment : ∀ {level cs a rest}, scanAssignment fuel level cs = some (a, rest) → a.2.Distinct
  assignments : ∀ {level cs as rest}, scanAssignments fuel level cs = some (as, rest) → ∀ a ∈ as, a.2.Distinct

section Scanning
variable {fuel level : Nat} {cs rest : List Char}

theorem ScansDistinct.scanValue {node : Node} (h : ScansDistinct fuel)
    (hscan : scanValue (fuel + 1) level cs = some (node, rest)) : node.Distinct := by
  have text : ∀ {body : Option (List Char × List Char)},
      (body.map fun b => (Node.text (String.ofList b.1), b.2)) = some (node, rest) → node.Distinct := by
    intro body hbody
    obtain ⟨_, -, heq⟩ := Option.map_eq_some_iff.mp hbody
    obtain ⟨rfl, -⟩ := Prod.mk.inj heq
    exact .text
  unfold Document.scanValue at hscan
  split at hscan
  · exact text hscan
  · exact text hscan
  · exact text hscan
  · exact text hscan
  · split at hscan
    · cases hscan
    · obtain ⟨⟨items, _⟩, hitems, heq⟩ := Option.map_eq_some_iff.mp hscan
      obtain ⟨rfl, -⟩ := Prod.mk.inj heq
      exact .list (h.items hitems)
  · split at hscan
    · cases hscan
    · split at hscan
      · cases hscan
        exact Distinct.nil
      · obtain ⟨⟨assignments, _⟩, hassignments, hrest⟩ := Option.bind_eq_some_iff.mp hscan
        obtain ⟨items, hitems, heq⟩ := Option.map_eq_some_iff.mp hrest
        obtain ⟨rfl, -⟩ := Prod.mk.inj heq
        exact distinct_assignAll (h.assignments hassignments) .nil hitems
  · obtain ⟨node', hnode, heq⟩ := Option.map_eq_some_iff.mp hscan
    obtain ⟨rfl, -⟩ := Prod.mk.inj heq
    exact distinct_scalar? hnode

theorem ScansDistinct.scanItems {items : List Node} (h : ScansDistinct fuel)
    (hscan : scanItems (fuel + 1) level cs = some (items, rest)) : ∀ n ∈ items, n.Distinct := by
  unfold Document.scanItems at hscan
  split at hscan
  · cases hscan
    intro n hn
    cases hn
  · obtain ⟨⟨item, after⟩, hitem, hafter⟩ := Option.bind_eq_some_iff.mp hscan
    dsimp only at hafter
    split at hafter
    · obtain ⟨⟨more, _⟩, hmore, heq⟩ := Option.map_eq_some_iff.mp hafter
      obtain ⟨rfl, -⟩ := Prod.mk.inj heq
      exact List.forall_mem_cons.mpr ⟨h.value hitem, h.items hmore⟩
    · cases hafter
      exact List.forall_mem_singleton.mpr (h.value hitem)
    · cases hafter

theorem ScansDistinct.scanAssignment {a : Assignment} (h : ScansDistinct fuel)
    (hscan : scanAssignment (fuel + 1) level cs = some (a, rest)) : a.2.Distinct := by
  unfold Document.scanAssignment at hscan
  obtain ⟨⟨key, after⟩, -, hafter⟩ := Option.bind_eq_some_iff.mp hscan
  dsimp only at hafter
  split at hafter
  · obtain ⟨⟨value, _⟩, hvalue, heq⟩ := Option.map_eq_some_iff.mp hafter
    obtain ⟨rfl, -⟩ := Prod.mk.inj heq
    exact h.value hvalue
  · cases hafter

theorem ScansDistinct.scanAssignments {as : List Assignment} (h : ScansDistinct fuel)
    (hscan : scanAssignments (fuel + 1) level cs = some (as, rest)) : ∀ a ∈ as, a.2.Distinct := by
  unfold Document.scanAssignments at hscan
  obtain ⟨⟨a, after⟩, ha, hafter⟩ := Option.bind_eq_some_iff.mp hscan
  dsimp only at hafter
  split at hafter
  · obtain ⟨⟨more, _⟩, hmore, heq⟩ := Option.map_eq_some_iff.mp hafter
    obtain ⟨rfl, -⟩ := Prod.mk.inj heq
    exact List.forall_mem_cons.mpr ⟨h.assignment ha, h.assignments hmore⟩
  · cases hafter
    exact List.forall_mem_singleton.mpr (h.assignment ha)
  · cases hafter

theorem scansDistinct (fuel : Nat) : ScansDistinct fuel := by
  induction fuel with
  | zero =>
    refine ⟨fun h => ?_, fun h => ?_, fun h => ?_, fun h => ?_⟩
    · rw [Document.scanValue] at h
      cases h
    · rw [Document.scanItems] at h
      cases h
    · rw [Document.scanAssignment] at h
      cases h
    · rw [Document.scanAssignments] at h
      cases h
  | succ fuel ih => exact ⟨ih.scanValue, ih.scanItems, ih.scanAssignment, ih.scanAssignments⟩

end Scanning

/-! ### Lines and sections -/

/-- The value that a line gives has distinct names. -/
def Line.Distinct : Line → Prop
  | .assignment a => a.2.Distinct
  | _ => True

theorem distinct_scanLine {fuel : Nat} {cs rest : List Char} {line : Line}
    (h : scanLine fuel cs = some (line, rest)) : line.Distinct := by
  unfold scanLine at h
  split at h
  · cases h
    trivial
  · obtain ⟨⟨path, after⟩, -, hafter⟩ := Option.bind_eq_some_iff.mp h
    dsimp only at hafter
    split at hafter <;> cases hafter
    trivial
  · obtain ⟨⟨path, after⟩, -, hafter⟩ := Option.bind_eq_some_iff.mp h
    dsimp only at hafter
    split at hafter <;> cases hafter
    trivial
  · split at h
    · cases h
      trivial
    · obtain ⟨⟨a, _⟩, ha, heq⟩ := Option.map_eq_some_iff.mp h
      obtain ⟨rfl, -⟩ := Prod.mk.inj heq
      exact (scansDistinct fuel).assignment ha

theorem distinct_scanLinesOf {fuel : Nat} {cs : List Char} {lines : List Line}
    (h : scanLinesOf fuel cs = some lines) : ∀ line ∈ lines, line.Distinct := by
  induction fuel generalizing cs lines with
  | zero => cases h
  | succ fuel ih =>
    rw [scanLinesOf] at h
    split at h
    · cases h
      intro line hline
      cases hline
    · obtain ⟨⟨line, after⟩, hline, hafter⟩ := Option.bind_eq_some_iff.mp h
      obtain ⟨rest, -, hrest⟩ := Option.bind_eq_some_iff.mp hafter
      obtain ⟨more, hmore, rfl⟩ := Option.map_eq_some_iff.mp hrest
      exact List.forall_mem_cons.mpr ⟨distinct_scanLine hline, ih hmore⟩

theorem distinct_sections {lines : List Line} (h : ∀ line ∈ lines, line.Distinct) :
    (∀ a ∈ (sections lines).1, a.2.Distinct) ∧ ∀ s ∈ (sections lines).2, ∀ a ∈ s.2, a.2.Distinct := by
  induction lines with
  | nil => exact ⟨fun a ha => (List.not_mem_nil ha).elim, fun s hs => (List.not_mem_nil hs).elim⟩
  | cons line lines ih =>
    obtain ⟨hline, hlines⟩ := List.forall_mem_cons.mp h
    obtain ⟨hfirst, hrest⟩ := ih hlines
    cases line with
    | blank => exact ⟨hfirst, hrest⟩
    | assignment a => exact ⟨List.forall_mem_cons.mpr ⟨hline, hfirst⟩, hrest⟩
    | tableHeader path => exact ⟨fun a ha => (List.not_mem_nil ha).elim, List.forall_mem_cons.mpr ⟨hfirst, hrest⟩⟩
    | listHeader path => exact ⟨fun a ha => (List.not_mem_nil ha).elim, List.forall_mem_cons.mpr ⟨hfirst, hrest⟩⟩

theorem keeps_fillTable {assignments : List Assignment} (h : ∀ a ∈ assignments, a.2.Distinct) :
    Keeps (fillTable assignments) := by
  intro before after hbefore hafter
  unfold fillTable at hafter
  split at hafter
  · obtain ⟨items, hitems, rfl⟩ := Option.map_eq_some_iff.mp hafter
    exact distinct_table.mpr (distinct_assignAll h .nil hitems)
  · obtain ⟨items, hitems, rfl⟩ := Option.map_eq_some_iff.mp hafter
    exact distinct_table.mpr (distinct_assignAll h (distinct_table.mp (hbefore _ rfl)) hitems)
  · cases hafter

theorem keeps_addTable {assignments : List Assignment} (h : ∀ a ∈ assignments, a.2.Distinct) :
    Keeps (addTable assignments) := by
  intro before after hbefore hafter
  unfold addTable at hafter
  split at hafter
  · obtain ⟨items, hitems, rfl⟩ := Option.map_eq_some_iff.mp hafter
    exact distinct_tables.mpr ⟨fun _ hi => (List.not_mem_nil hi).elim, distinct_assignAll h .nil hitems⟩
  · obtain ⟨items, hitems, rfl⟩ := Option.map_eq_some_iff.mp hafter
    obtain ⟨hearlier, hlast⟩ := distinct_tables.mp (hbefore _ rfl)
    refine distinct_tables.mpr ⟨fun i hi => ?_, distinct_assignAll h .nil hitems⟩
    rcases List.mem_append.mp hi with hi | hi
    · exact hearlier i hi
    · rw [List.mem_singleton.mp hi]
      exact hlast
  · cases hafter

theorem distinct_addSection {items items' : Items} {header : Line} {assignments : List Assignment}
    (h : Distinct items) (hvalues : ∀ a ∈ assignments, a.2.Distinct)
    (hadd : addSection items (header, assignments) = some items') : Distinct items' := by
  cases header with
  | blank => cases hadd
  | assignment => cases hadd
  | tableHeader path => exact distinct_alter (keeps_fillTable hvalues) h hadd
  | listHeader path => exact distinct_alter (keeps_addTable hvalues) h hadd

theorem distinct_addSections {items items' : Items} {added : List (Line × List Assignment)} (h : Distinct items)
    (hvalues : ∀ s ∈ added, ∀ a ∈ s.2, a.2.Distinct) (hadd : added.foldlM addSection items = some items') :
    Distinct items' := by
  induction added generalizing items with
  | nil =>
    obtain rfl := Option.some.inj hadd
    exact h
  | cons s added ih =>
    obtain ⟨hs, hadded⟩ := List.forall_mem_cons.mp hvalues
    obtain ⟨inner, hinner, hrest⟩ := Option.bind_eq_some_iff.mp hadd
    exact ih (distinct_addSection h hs hinner) hadded hrest

theorem distinct_assemble {lines : List Line} {items : Items} (h : ∀ line ∈ lines, line.Distinct)
    (hassemble : assemble lines = some items) : Distinct items := by
  obtain ⟨hfirst, hrest⟩ := distinct_sections h
  obtain ⟨inner, hinner, hadd⟩ := Option.bind_eq_some_iff.mp hassemble
  exact distinct_addSections (distinct_assignAll hfirst .nil hinner) hrest hadd

/-- No table of a document that is read has a name twice. -/
theorem distinct_of_read {text : String} {ms : Members} (h : read text = some ms) : (Node.table ms).Distinct := by
  obtain ⟨items, hitems, rfl⟩ := Option.map_eq_some_iff.mp h
  obtain ⟨lines, hlines, hassemble⟩ := Option.bind_eq_some_iff.mp hitems
  exact distinct_assemble (distinct_scanLinesOf hlines) hassemble

end EntityQuery.Settings.Document
