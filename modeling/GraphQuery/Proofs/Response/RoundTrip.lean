import GraphQuery.Proofs.Value.Normal
import GraphQuery.Proofs.Response.Reading

/-!
# Records come back from their bytes

A record that is written is read back, with whatever bytes after it, and not from fewer bytes.

The maps of a plan, its index and the other measurements of a profile, have no order of their own,
so a record may be written with their entries in any order: what is written is a listing of the
record. The entries of a map inside a value are always written in the order of their keys.

## Main definitions

* `Response.ListedAs`: a response with the entries of its plan's maps in any order.
* `Record.ReadsBack`: a record is read from its bytes and from no beginning of them.

## Main results

* `Record.reads_value`, `Record.reads_plan`, `Record.reads_response`: what each reader reads.
* `Record.records_readBack`: responses, logins and values are read back.
-/

namespace GraphQuery

/-! ### Listings -/

/-- A profile with its other measurements in any order. -/
inductive Plan.Profile.ListedAs : Plan.Profile → Plan.Profile → Prop
  | other {profile : Plan.Profile} (other : Option (List (String × String)))
      (h : Option.Rel Entries.ListedAs profile.other other) :
      ListedAs profile { profile with other := other }

/-- A node with the maps of its profiles in any order. -/
inductive Plan.Node.ListedAs : Plan.Node → Plan.Node → Prop
  | profiles {node : Plan.Node} (profiles : Option (List Plan.Profile))
      (h : Option.Rel (List.Forall₂ Plan.Profile.ListedAs) node.profiles profiles) :
      ListedAs node { node with profiles := profiles }

/-- A plan with its index and the maps of its nodes in any order. -/
inductive Plan.ListedAs : Plan → Plan → Prop
  | maps {plan : Plan} (nodes : List Plan.Node) (index : List (Int64 × Int64))
      (hnodes : List.Forall₂ Plan.Node.ListedAs plan.nodes nodes)
      (hindex : Entries.ListedAs plan.index index) :
      ListedAs plan { plan with nodes := nodes, index := index }

/-- The maps inside the values of a table have their entries in order. -/
def Table.Sorted (table : Table) : Prop := ∀ row ∈ table.rows, ∀ v ∈ row, v.Sorted

/-- A response with the maps of its plan in any order. -/
inductive Response.ListedAs : Response → Response → Prop
  | plan {response : Response} (plan : Option Plan)
      (htable : ∀ table ∈ response.table, table.Sorted)
      (hplan : Option.Rel Plan.ListedAs response.plan plan) :
      ListedAs response { response with plan := plan }

namespace Record

variable {α : Type} {limit : Nat}

/-! ### What is written -/

@[simp] theorem length_writeLength (n : Nat) : (writeLength n).length = 8 :=
  Bytes.length_littleEndian 8 n

@[simp] theorem length_writeChoice (position : Nat) : (writeChoice position).length = 4 :=
  Bytes.length_littleEndian 4 position

@[simp] theorem length_writeInt64 (n : Int64) : (writeInt64 n).length = 8 :=
  Bytes.length_littleEndian 8 _

theorem length_writeInt64_pos (n : Int64) : 0 < (writeInt64 n).length := by
  rw [length_writeInt64]
  omega

theorem length_writeText_pos (s : String) : 0 < (writeText s).length := by
  simp only [writeText, List.length_append, length_writeLength]
  omega

theorem length_writeList_pos (write : α → List UInt8) (items : List α) :
    0 < (writeList write items).length := by
  simp only [writeList, List.length_append, length_writeLength]
  omega

theorem length_writeValue_pos (v : Value) : 0 < (writeValue v).length := by
  cases v <;> simp only [writeValue, List.length_append, length_writeChoice] <;> omega

theorem length_writeProfile_pos (profile : Plan.Profile) : 0 < (writeProfile profile).length := by
  simp only [writeProfile, List.length_append, length_writeInt64]
  omega

theorem length_writeNode_pos (node : Plan.Node) : 0 < (writeNode node).length := by
  simp only [writeNode, List.length_append, length_writeInt64]
  omega

theorem writeValues_eq (items : List Value) : writeValues items = items.flatMap writeValue := by
  induction items with
  | nil => rfl
  | cons v vs ih => rw [writeValues, ih, List.flatMap_cons]

theorem writeEntries_eq (entries : List (String × Value)) :
    writeEntries entries = entries.flatMap (writePair writeText writeValue) := by
  induction entries with
  | nil => rfl
  | cons entry es ih => rw [writeEntries, ih, List.flatMap_cons, writePair]

/-! ### Values -/

/-- The four bytes of a choice pay for the level that is entered after it. -/
theorem reads_entered {levels : Nat} (position : Nat) (type : ValueType)
    {next : ValueType → PartReader Value} {v : Value} {w : List UInt8}
    (htype : ValueType.all[position]? = some type) (hnext : Reads levels (next type) v w) :
    Reads (levels + 1) (readChoice ValueType.all >>= next) v (writeChoice position ++ w) := by
  have hposition : position < ValueType.all.length := (List.getElem?_eq_some_iff.1 htype).1
  have hlength : ValueType.all.length = 7 := rfl
  refine (reads_choice htype (by omega)).bind_of_le ?_ hnext
  rw [length_writeChoice]
  omega

/-- Values are read by a reader with more levels than there are bytes. -/
theorem reads_value : ∀ {levels : Nat} {v : Value}, v.Sorted →
    Reads levels (valueReader levels) v (writeValue v) := by
  intro levels
  induction levels with
  | zero => exact fun _ => reads_zero _ _ _
  | succ levels ih =>
    intro v h
    cases v with
    | null => exact Reads.of_eq (reads_entered 0 .null rfl (reads_pure Value.null)) (List.append_nil _)
    | bool b => exact reads_entered 1 .bool rfl ((reads_bool b).map Value.bool)
    | int n => exact reads_entered 2 .int rfl ((reads_int64 n).map Value.int)
    | float x => exact reads_entered 3 .float rfl ((reads_float x).map Value.float)
    | string s => exact reads_entered 4 .string rfl ((reads_text s).map Value.string)
    | list items =>
      have hitems := reads_items length_writeValue_pos
        fun v hv => ih (Value.sortedItems_iff.1 h v hv)
      refine Reads.of_eq (reads_entered 5 .list rfl (hitems.map Value.list)) ?_
      rw [writeValue, writeList, writeValues_eq, List.append_assoc]
    | map entries =>
      have hlisted : Entries.ListedAs entries entries := ⟨h.1, .refl _⟩
      have hentries := reads_map hlisted length_writeText_pos reads_text
        fun entry he => ih (Value.sortedEntries_iff.1 h.2 entry he)
      refine Reads.of_eq (reads_entered 6 .map rfl (hentries.map Value.map)) ?_
      rw [writeValue, writeList, writeEntries_eq, List.append_assoc]

/-! ### Records -/

theorem reads_texts (texts : List String) :
    Reads limit (readList readText) texts (writeList writeText texts) :=
  reads_items length_writeText_pos fun s _ => reads_text s

theorem reads_textPairs (pairs : List (String × String)) :
    Reads limit (readList (readPair readText readText)) pairs
      (writeList (writePair writeText writeText) pairs) :=
  reads_items (length_writePair_pos length_writeText_pos writeText)
    fun pair _ => reads_pair (reads_text pair.1) (reads_text pair.2)

theorem reads_ids (ids : List Int64) :
    Reads limit (readList readInt64) ids (writeList writeInt64 ids) :=
  reads_items length_writeInt64_pos fun n _ => reads_int64 n

/-- A text that a record may be without. -/
theorem reads_comment (comment : Option String) :
    Reads limit (readOptional readText) comment (writeOptional writeText comment) :=
  reads_field fun s _ => reads_text s

theorem reads_textMap {entries listing : List (String × String)}
    (h : Entries.ListedAs entries listing) :
    Reads limit (readMap readText readText) entries
      (writeList (writePair writeText writeText) listing) :=
  reads_map h length_writeText_pos reads_text fun entry _ => reads_text entry.2

theorem reads_table {value : PartReader Value}
    (hvalue : ∀ v : Value, v.Sorted → Reads limit value v (writeValue v)) {table : Table}
    (h : table.Sorted) : Reads limit (readTable value) table (writeTable table) := by
  have hrow : ∀ row ∈ table.rows, Reads limit (readList value) row (writeList writeValue row) :=
    fun row hrow => reads_items length_writeValue_pos fun v hv => hvalue v (h row hrow v hv)
  have hrows := reads_items (length_writeList_pos writeValue) hrow
  exact (reads_texts table.columns).bind (hrows.map (Table.mk table.columns))

theorem reads_profile {profile listing : Plan.Profile} (h : profile.ListedAs listing) :
    Reads limit readProfile profile (writeProfile listing) := by
  obtain ⟨other, hother⟩ := h
  have hread : Reads limit (readOptional (readMap readText readText)) profile.other
      (writeOptional (writeList (writePair writeText writeText)) other) :=
    reads_optional (fun _ _ => reads_textMap) hother
  refine Reads.of_eq ((reads_int64 _).bind ((reads_int64 _).bind ((reads_int64 _).bind
    (hread.map _)))) ?_
  simp only [writeProfile, List.append_assoc]

theorem reads_branch (branch : Plan.Branch) :
    Reads limit readBranch branch (writeBranch branch) :=
  (reads_bool _).bind ((reads_int64 _).map _)

theorem reads_node {node listing : Plan.Node} (h : node.ListedAs listing) :
    Reads limit readNode node (writeNode listing) := by
  obtain ⟨profiles, hprofiles⟩ := h
  have hdescription := reads_field fun pairs (_ : pairs ∈ node.description) =>
    @reads_textPairs limit pairs
  have hruns : Reads limit (readOptional (readList readProfile)) node.profiles
      (writeOptional (writeList writeProfile) profiles) :=
    reads_optional (fun _ _ => reads_list length_writeProfile_pos fun _ _ => reads_profile)
      hprofiles
  have hbranch := reads_field fun branch (_ : branch ∈ node.branch) => @reads_branch limit branch
  have hdependencies := reads_field fun ids (_ : ids ∈ node.dependencies) => @reads_ids limit ids
  refine Reads.of_eq ((reads_text _).bind ((reads_int64 _).bind ((reads_text _).bind
    (hdescription.bind (hruns.bind (hbranch.bind (hdependencies.map _))))))) ?_
  simp only [writeNode, List.append_assoc]

theorem reads_plan {plan listing : Plan} (h : plan.ListedAs listing) :
    Reads limit readPlan plan (writePlan listing) := by
  obtain ⟨nodes, index, hnodes, hindex⟩ := h
  have hnodesRead : Reads limit (readList readNode) plan.nodes (writeList writeNode nodes) :=
    reads_list length_writeNode_pos (fun _ _ => reads_node) hnodes
  have hindexRead : Reads limit (readMap readInt64 readInt64) plan.index
      (writeList (writePair writeInt64 writeInt64) index) :=
    reads_map hindex length_writeInt64_pos reads_int64 fun entry _ => reads_int64 entry.2
  refine Reads.of_eq (hnodesRead.bind (hindexRead.bind ((reads_text _).bind
    ((reads_int32 _).map _)))) ?_
  simp only [writePlan, List.append_assoc]

theorem reads_status (status : Status) : Reads limit readStatus status (writeStatus status) := by
  have hposition := (List.getElem?_eq_some_iff.1 status.getElem?_position).1
  have hlength : Status.all.length = 15 := rfl
  exact reads_choice status.getElem?_position (by omega)

theorem reads_login (login : Login) : Reads limit readLogin login (writeLogin login) := by
  have hsession := reads_field fun n (_ : n ∈ login.session) => @reads_int64 limit n
  refine Reads.of_eq ((reads_status _).bind (hsession.bind ((reads_comment _).map _))) ?_
  simp only [writeLogin, List.append_assoc]

theorem reads_response {value : PartReader Value}
    (hvalue : ∀ v : Value, v.Sorted → Reads limit value v (writeValue v))
    {response listing : Response} (h : response.ListedAs listing) :
    Reads limit (readResponse value) response (writeResponse listing) := by
  obtain ⟨plan, htable, hplan⟩ := h
  have htableRead := reads_field fun table ht => reads_table hvalue (htable table ht)
  have hplanRead : Reads limit (readOptional readPlan) response.plan
      (writeOptional writePlan plan) :=
    reads_optional (fun _ _ => reads_plan) hplan
  refine Reads.of_eq ((reads_status _).bind ((reads_int32 _).bind (htableRead.bind
    ((reads_comment _).bind ((reads_comment _).bind (hplanRead.bind
      ((reads_comment _).map _))))))) ?_
  simp only [writeResponse, List.append_assoc]

/-! ### Whole records -/

/-- A record is read from its bytes, whatever follows them, and from no beginning of the bytes but
all of them. -/
def ReadsBack (decode : List UInt8 → Except Fault α) (a : α) (w : List UInt8) : Prop :=
  (∀ more, decode (w ++ more) = .ok a) ∧
    ∀ start, start <+: w → start ≠ w → ∃ fault, fault.IsEnd ∧ decode start = .error fault

/-- A reader whose limit is set by the bytes that it is given reads a record back. -/
theorem Reads.readsBack {reader : Nat → PartReader α} {a : α} {w : List UInt8}
    (h : ∀ limit, Reads limit (reader limit) a w) (hlength : w.length < 2 ^ 64) :
    ReadsBack (fun bytes => decode (reader (bytes.length + 1)) bytes) a w := by
  constructor
  · intro more
    have hrun := (h _ hlength).1 more (Nat.lt_succ_self _)
    simp only [decode, StateT.run, hrun, Except.map]
  · rintro start ⟨rest, rfl⟩ hne
    have hrest : rest ≠ [] := fun hnil => hne (by rw [hnil, List.append_nil])
    obtain ⟨fault, hend, hrun⟩ := (h _ hlength).2 start rest rfl hrest (Nat.lt_succ_self _)
    refine ⟨fault, hend, ?_⟩
    simp only [decode, StateT.run, hrun, Except.map]

/-- Responses, logins and values are read back from what is written for them, in whatever order
the maps of a plan were listed. Lengths are written in eight bytes, so these are records whose bytes
such a length can count. -/
theorem records_readBack :
    (∀ response listing : Response, response.ListedAs listing →
      (writeResponse listing).length < 2 ^ 64 →
        ReadsBack decodeResponse response (writeResponse listing)) ∧
    (∀ login : Login, (writeLogin login).length < 2 ^ 64 →
      ReadsBack decodeLogin login (writeLogin login)) ∧
    ∀ v : Value, v.Sorted → (writeValue v).length < 2 ^ 64 →
      ReadsBack decodeValue v (writeValue v) := by
  refine ⟨fun response listing hlisted => ?_, fun login => ?_, fun v hv => ?_⟩
  · exact Reads.readsBack fun limit => reads_response (fun _ => reads_value) hlisted
  · exact @Reads.readsBack _ (fun _ => readLogin) _ _ fun limit => reads_login login
  · exact Reads.readsBack fun limit => reads_value hv

/-- Both maps of a plan are listed backwards, and a NaN keeps its bits. -/
theorem records_readBack_backwards :
    let profile : Plan.Profile := { rows := 3, other := some [("cpu", "1"), ("io", "2")] }
    let node : Plan.Node := { name := "Scan", id := 7, profiles := some [profile] }
    let plan : Plan :=
      { nodes := [node], index := [(-1, 1), (7, 0)], format := "row", optimizeTime := -5 }
    let backwards : Plan :=
      { plan with
        nodes := [{ node with
          profiles := some [{ profile with other := some [("io", "2"), ("cpu", "1")] }] }]
        index := [(7, 0), (-1, 1)] }
    let value : Value := .map [("k", .list [.null, .float ⟨0xFFF8000000000001⟩])]
    let response : Response :=
      { status := .partialSucceeded, table := some ⟨["x"], [[value]]⟩, plan := some plan }
    let login : Login := { session := some (-1), error := some "" }
    ReadsBack decodeResponse response (writeResponse { response with plan := some backwards }) ∧
      ReadsBack decodeLogin login (writeLogin login) ∧
      ReadsBack decodeValue value (writeValue value) := by
  intro profile node plan backwards value response login
  have hprofile : profile.ListedAs { profile with other := some [("io", "2"), ("cpu", "1")] } :=
    .other _ (.some ⟨List.pairwise_pair.2 (by decide +kernel), .swap _ _ []⟩)
  have hplan : plan.ListedAs backwards :=
    .maps _ _ (.cons (.profiles _ (.some (.cons hprofile .nil))) .nil)
      ⟨List.pairwise_pair.2 (by decide +kernel), .swap _ _ []⟩
  have hvalue : value.Sorted := ⟨List.pairwise_singleton _ _, ⟨trivial, trivial, trivial⟩, trivial⟩
  have htable : Table.Sorted ⟨["x"], [[value]]⟩ := by simpa [Table.Sorted] using hvalue
  have hlisted : response.ListedAs { response with plan := some backwards } :=
    .plan _ (fun table ht => Option.some.inj ht ▸ htable) (.some hplan)
  exact ⟨records_readBack.1 response _ hlisted (by decide +kernel),
    records_readBack.2.1 login (by decide +kernel),
    records_readBack.2.2 value hvalue (by decide +kernel)⟩

end Record

end GraphQuery
