import ReadexPtf.Lib.Decimal
import ReadexPtf.Lib.OrdMap
import ReadexPtf.Lib.PropertyTree
import ReadexPtf.TuningDatabase.BackEnds
import Mathlib

/-! The JSON back end: what is saved is written as one document, and a database is read from
a document. -/
namespace ReadexPtf.TuningDatabase
open ReadexPtf

structure ProgramSignature where
  values : OrdMap String ℤ

/-- How numbers are written into nodes and read from them. -/
structure Translators where
  writeInt : ℤ → String
  readInt : String → Option ℤ
  writeDouble : ℚ → String
  readDouble : String → Option ℚ
  int : ∀ v, readInt (writeInt v) = some v
  word : readInt "" = none ∧ readInt "null" = none

/-- What the extension objects write, and the parsers that are registered for the types. -/
structure ExtensionTrees (Ptr : Type) where
  toPtree : Ptr → PTree → PTree
  typeToParser : String → Option (PTree → Option Ptr)

section Signatures
variable (tr : Translators)

def ProgramSignature.toPtree (signature : ProgramSignature) : PTree :=
  signature.values.entries.foldl (fun result e => result.put e.1 (tr.writeInt e.2)) .empty

def ProgramSignature.fromPtree (pt : PTree) : Option ProgramSignature :=
  (pt.children.foldlM (fun (values : OrdMap String ℤ) child =>
    (tr.readInt child.2.data).map (values.set child.1)) .empty).map .mk

end Signatures

section Values
variable {Ptr Kind Content : Type} [DecidableEq Ptr] [DecidableEq Kind]
  (ext : Extensions Ptr Kind Content) (trees : ExtensionTrees Ptr) (tr : Translators)

def TuningValue.toPtree (tv : TuningValue Ptr) : PTree :=
  let pt := PTree.empty.put "type" "generic"
  let pt := pt.put "plugintype" (tr.writeInt tv.pluginType)
  let pt := pt.put "name" tv.name
  let pt :=
    match tv.extension with
    | none => pt
    | some extension => trees.toPtree extension pt
  if tv.value ≠ nullValue then pt.put "value" (tr.writeInt tv.value) else pt.put "value" "null"

/-- A type without a parser is a call of a null pointer. -/
def TuningValue.fromPtree (pt : PTree) : Option (TuningValue Ptr) := do
  let pluginType ← pt.get "plugintype" tr.readInt
  let name ← pt.get "name" some
  let type ← pt.get "type" some
  let extension ←
    if type ≠ "generic" then
      (trees.typeToParser type).bind fun parser => (parser pt).map some
    else some none
  some ⟨pluginType, name, extension, (pt.get "value" tr.readInt).getD nullValue⟩

def TuningConfiguration.toPtree (config : TuningConfiguration Ptr) : PTree :=
  config.values.foldl (fun pt tv => pt.pushBack "" (tv.toPtree trees tr)) .empty

def TuningConfiguration.fromPtree (pt : PTree) : Option (TuningConfiguration Ptr) :=
  pt.children.foldlM (fun (result : TuningConfiguration Ptr) child =>
    (TuningValue.fromPtree trees tr child.2).map (result.add ext)) .empty

end Values

structure JsonTuningDatabase (Ptr : Type) where
  signatures : List ProgramSignature
  casez : List (List (TuningCase Ptr))
  signatureRecords : PTree
  tuningCaseRecords : PTree

inductive Save (Ptr : Type) where
  | signature (id : String) (signature : ProgramSignature)
  | tuningCase (id : String) (tc : TuningCase Ptr)

section Database
variable {Ptr Kind Content : Type} [DecidableEq Ptr] [DecidableEq Kind]
  (ext : Extensions Ptr Kind Content) (trees : ExtensionTrees Ptr) (tr : Translators)
  (sort : Traversal (TuningCase Ptr))

/-- A database that was opened, before anything is saved in it. -/
def JsonTuningDatabase.opened (signatures : List ProgramSignature)
    (casez : List (List (TuningCase Ptr))) : JsonTuningDatabase Ptr :=
  ⟨signatures, casez, .empty, .empty⟩

def JsonTuningDatabase.saveSignature (db : JsonTuningDatabase Ptr) (id : String)
    (signature : ProgramSignature) : JsonTuningDatabase Ptr :=
  let signatureRecord := PTree.empty.put "id" id
  let signatureRecord := signatureRecord.pushBack "signature" (signature.toPtree tr)
  { db with signatureRecords := db.signatureRecords.pushBack "" signatureRecord }

def JsonTuningDatabase.saveTuningCase (db : JsonTuningDatabase Ptr) (id : String)
    (tc : TuningCase Ptr) : JsonTuningDatabase Ptr :=
  let tuningCaseRecord := PTree.empty.put "id" id
  let tuningCaseRecord := tuningCaseRecord.pushBack "configuration" (tc.1.toPtree trees tr)
  let tuningCaseRecord := tuningCaseRecord.put "exectime" (tr.writeDouble tc.2)
  { db with tuningCaseRecords := db.tuningCaseRecords.pushBack "" tuningCaseRecord }

def JsonTuningDatabase.save (db : JsonTuningDatabase Ptr) : Save Ptr → JsonTuningDatabase Ptr
  | .signature id signature => db.saveSignature tr id signature
  | .tuningCase id tc => db.saveTuningCase trees tr id tc

/-- The document that `commit` writes. -/
def JsonTuningDatabase.commit (db : JsonTuningDatabase Ptr) : PTree :=
  (PTree.empty.pushBack "signatures" db.signatureRecords).pushBack "tuningcases"
    db.tuningCaseRecords

def readCase (casePtree : PTree) : Option (TuningCase Ptr) := do
  let config ← TuningConfiguration.fromPtree ext trees tr (← casePtree.getChild "configuration")
  let execTime ← casePtree.get "exectime" tr.readDouble
  some (config, execTime)

/-- One round of the loop over the programs of a document. -/
def readBenchmark (db : JsonTuningDatabase Ptr) (benchmark : PTree) :
    Option (JsonTuningDatabase Ptr) := do
  let signature ← ProgramSignature.fromPtree tr (← benchmark.getChild "signature")
  let configurationsPtree ← benchmark.getChild "tuningcases"
  let cases ← configurationsPtree.children.mapM fun child => readCase ext trees tr child.2
  some { db with
    signatures := db.signatures ++ [signature]
    casez := db.casez ++ [jsonQueryCases sort cases] }

/-- The constructor, on the document in the file; an exception is `none`. -/
def JsonTuningDatabase.ofDocument (obj : PTree) : Option (JsonTuningDatabase Ptr) :=
  obj.children.foldlM (fun db child => readBenchmark ext trees tr sort db child.2) (.opened [] [])

def savedSignatures (saves : List (Save Ptr)) : List ProgramSignature :=
  saves.filterMap fun
    | .signature _ signature => some signature
    | .tuningCase _ _ => none

def savedCases (saves : List (Save Ptr)) : List (TuningCase Ptr) :=
  saves.filterMap fun
    | .signature _ _ => none
    | .tuningCase _ tc => some tc

/-- The file that is written after the saves is opened as a database with the same
signatures and cases. -/
def Reopens (write_json : PTree → Option String) (read_json : String → Option PTree)
    (db : JsonTuningDatabase Ptr) (saves : List (Save Ptr)) : Prop :=
  ∃ text obj db',
    write_json (saves.foldl (JsonTuningDatabase.save trees tr) db).commit = some text ∧
    read_json text = some obj ∧ JsonTuningDatabase.ofDocument ext trees tr sort obj = some db' ∧
      db'.signatures.Perm (savedSignatures saves) ∧ db'.casez.flatten.Perm (savedCases saves)

end Database

section SignatureTrees
variable {tr : Translators}

theorem toPtree_eq_puts (signature : ProgramSignature) : signature.toPtree tr =
    (signature.values.entries.map fun e => (e.1, tr.writeInt e.2)).foldl
      (fun t e => t.put e.1 e.2) .empty := by
  rw [List.foldl_map]
  rfl

theorem foldl_set_entries {es : List (String × ℤ)} (h : es.Pairwise fun a b => a.1 < b.1) :
    (es.foldl (fun m e => m.set e.1 e.2) (OrdMap.empty : OrdMap String ℤ)).entries = es := by
  induction es using List.reverseRecOn with
  | nil => rfl
  | append_singleton es e ih =>
    rw [List.pairwise_append] at h
    rw [List.foldl_append, List.foldl_cons, List.foldl_nil, OrdMap.set]
    have hlast : ∀ e' ∈ es, e'.1 < e.1 := fun e' he' => h.2.2 e' he' e List.mem_cons_self
    dsimp only
    rw [ih h.1, OrdMap.Entries.insert_last hlast]

/-- What is read is a value for some of the names in the tree. -/
theorem keys_of_fold {cs : List (String × PTree)} {m m' : OrdMap String ℤ}
    (h : cs.foldlM (fun (values : OrdMap String ℤ) child =>
      (tr.readInt child.2.data).map (values.set child.1)) m = some m') {key : String}
    (hkey : key ∈ m'.keys) : key ∈ cs.map Prod.fst ∨ key ∈ m.keys := by
  induction cs generalizing m with
  | nil =>
    rw [List.foldlM_nil] at h
    exact .inr (Option.some.inj h ▸ hkey)
  | cons c cs ih =>
    rw [List.foldlM_cons] at h
    cases hread : tr.readInt c.2.data with
    | none => simp [hread] at h
    | some v =>
      rw [hread, Option.map_some, Option.bind_eq_bind, Option.bind_some] at h
      rcases ih h with hrest | hset
      · exact .inl (List.mem_cons_of_mem _ hrest)
      · cases OrdMap.mem_keys_set.mp hset with
        | inl hself => exact .inl (hself ▸ List.mem_cons_self)
        | inr hold => exact .inr hold

/-- A signature is read back where the names of its counters are no paths. -/
theorem signature_reads_back_iff (signature : ProgramSignature) :
    ProgramSignature.fromPtree tr (signature.toPtree tr) = some signature ↔
      ∀ key ∈ signature.values.keys, key ≠ "" ∧ '.' ∉ key.toList := by
  constructor
  · intro h
    rw [ProgramSignature.fromPtree, Option.map_eq_some_iff] at h
    obtain ⟨values, hvalues, rfl⟩ := h
    have hstarts : ∀ key ∈ values.keys, ∃ e ∈ values.entries, ∃ keys,
        PTree.fragments e.1 = key :: keys := by
      intro key hkey
      have hchild := (keys_of_fold hvalues hkey).resolve_right (by simp [OrdMap.keys, OrdMap.empty])
      rw [toPtree_eq_puts] at hchild
      obtain ⟨e, he, keys, hfragments⟩ :=
        (PTree.key_of_puts _ _ hchild).resolve_right (by simp [PTree.empty])
      obtain ⟨e', he', rfl⟩ := List.mem_map.mp he
      exact ⟨e', he', keys, hfragments⟩
    have hplain : ∀ key ∈ values.keys, '.' ∉ key.toList := by
      intro key hkey
      obtain ⟨e, -, keys, hfragments⟩ := hstarts key hkey
      exact PTree.head_fragments hfragments
    refine fun key hkey => ⟨fun hempty => ?_, hplain key hkey⟩
    obtain ⟨e, he, keys, hfragments⟩ := hstarts key hkey
    have hname : e.1 ≠ "" := by
      intro hnone
      rw [hnone, PTree.fragments, if_pos rfl] at hfragments
      exact absurd hfragments (by simp)
    rw [PTree.fragments_of_plain hname (hplain e.1 (List.mem_map_of_mem he))] at hfragments
    exact hname ((List.cons.inj hfragments).1.trans hempty)
  · intro h
    have hentries : ∀ e ∈ signature.values.entries.map fun e => (e.1, tr.writeInt e.2),
        e.1 ≠ "" ∧ '.' ∉ e.1.toList := by
      intro e he
      obtain ⟨e', he', rfl⟩ := List.mem_map.mp he
      exact h e'.1 (List.mem_map_of_mem he')
    have hread : ∀ (es : List (String × ℤ)) (m : OrdMap String ℤ),
        ((es.map fun e => (e.1, tr.writeInt e.2)).map fun e => (e.1, PTree.node e.2 [])).foldlM
          (fun (values : OrdMap String ℤ) child =>
            (tr.readInt child.2.data).map (values.set child.1)) m =
          some (es.foldl (fun m e => m.set e.1 e.2) m) := by
      intro es
      induction es with
      | nil => exact fun _ => rfl
      | cons e es ih =>
        intro m
        rw [List.map_cons, List.map_cons, List.foldlM_cons, PTree.data_node, tr.int,
          Option.map_some, Option.bind_eq_bind, Option.bind_some, ih, List.foldl_cons]
    have hnodup : (([] : List (String × PTree)).map Prod.fst ++
        (signature.values.entries.map fun e => (e.1, tr.writeInt e.2)).map Prod.fst).Nodup := by
      simpa [OrdMap.keys, Function.comp_def] using signature.values.keys_nodup
    obtain ⟨values⟩ := signature
    rw [toPtree_eq_puts, PTree.empty, PTree.puts_new _ _ _ hentries hnodup,
      ProgramSignature.fromPtree, PTree.children_node, List.nil_append, hread, Option.map_some]
    have hext : ∀ m m' : OrdMap String ℤ, m.entries = m'.entries → m = m' := by
      rintro ⟨es, hes⟩ ⟨es', hes'⟩ hsame
      obtain rfl : es = es' := hsame
      rfl
    rw [hext _ _ (foldl_set_entries values.sorted)]

end SignatureTrees

section ValueTrees
variable {Ptr Kind Content : Type} {trees : ExtensionTrees Ptr} {tr : Translators}

theorem toPtree_eq {tv : TuningValue Ptr} (h : tv.extension = none) :
    tv.toPtree trees tr = PTree.node "" [("type", .node "generic" []),
      ("plugintype", .node (tr.writeInt tv.pluginType) []), ("name", .node tv.name []),
      ("value", .node (if tv.value ≠ nullValue then tr.writeInt tv.value else "null") [])] := by
  have hputs := PTree.puts_new [("type", "generic"), ("plugintype", tr.writeInt tv.pluginType),
    ("name", tv.name), ("value", if tv.value ≠ nullValue then tr.writeInt tv.value else "null")]
    "" [] (by simp) (by simp)
  rw [TuningValue.toPtree, h]
  refine Eq.trans ?_ hputs
  by_cases hvalue : tv.value ≠ nullValue
  · simp only [if_pos hvalue, PTree.empty, List.foldl_cons, List.foldl_nil]
  · simp only [if_neg hvalue, PTree.empty, List.foldl_cons, List.foldl_nil]

/-- A value without an extension is read back. -/
theorem tuningValue_reads_back {tv : TuningValue Ptr} (h : tv.extension = none) :
    TuningValue.fromPtree trees tr (tv.toPtree trees tr) = some tv := by
  rw [toPtree_eq h, TuningValue.fromPtree]
  rw [PTree.get_of_plain (by decide) (by decide), PTree.get_of_plain (by decide) (by decide),
    PTree.get_of_plain (by decide) (by decide), PTree.get_of_plain (by decide) (by decide)]
  obtain ⟨pluginType, name, extension, value⟩ := tv
  obtain rfl : extension = none := h
  by_cases hvalue : value ≠ nullValue
  · simp [PTree.find, List.lookup, tr.int, hvalue]
  · simp [PTree.find, List.lookup, tr.int, tr.word, not_not.mp hvalue]

variable {Kind Content : Type} [DecidableEq Ptr] [DecidableEq Kind]
  {ext : Extensions Ptr Kind Content}

theorem tuningConfiguration_reads_back {config : TuningConfiguration Ptr}
    (h : ∀ tv ∈ config.values, tv.extension = none)
    (hsorted : config.values.Pairwise fun tv tv' => tv.compare ext tv' < 0) :
    TuningConfiguration.fromPtree ext trees tr (config.toPtree trees tr) = some config := by
  have hchildren : ∀ (tvs : List (TuningValue Ptr)) (pt : PTree),
      (tvs.foldl (fun pt tv => pt.pushBack "" (tv.toPtree trees tr)) pt).children =
        pt.children ++ tvs.map fun tv => ("", tv.toPtree trees tr) := by
    intro tvs
    induction tvs with
    | nil => simp
    | cons tv tvs ih =>
      intro pt
      rw [List.foldl_cons, ih, List.map_cons, PTree.pushBack, PTree.children_node,
        List.append_assoc, List.singleton_append]
  have hread : ∀ (tvs : List (TuningValue Ptr)) (c : TuningConfiguration Ptr),
      (∀ tv ∈ tvs, tv.extension = none) →
      (tvs.map fun tv => ("", tv.toPtree trees tr)).foldlM
        (fun (result : TuningConfiguration Ptr) child =>
          (TuningValue.fromPtree trees tr child.2).map (result.add ext)) c =
        some (tvs.foldl (fun c tv => c.add ext tv) c) := by
    intro tvs
    induction tvs with
    | nil => exact fun _ _ => rfl
    | cons tv tvs ih =>
      intro c hplain
      rw [List.forall_mem_cons] at hplain
      rw [List.map_cons, List.foldlM_cons, tuningValue_reads_back hplain.1, Option.map_some,
        Option.bind_eq_bind, Option.bind_some, ih _ hplain.2, List.foldl_cons]
  have hvalues : (TuningConfiguration.ofValues ext config.values).values = _ :=
    ofValues_values config.values
  rw [foldl_setInsert_sorted hsorted] at hvalues
  rw [TuningConfiguration.fromPtree, TuningConfiguration.toPtree, hchildren, PTree.empty,
    PTree.children_node, List.nil_append, hread _ _ h]
  obtain ⟨values⟩ := config
  exact congrArg (fun values => some (TuningConfiguration.mk values)) hvalues

end ValueTrees

section Reopening
variable {Ptr : Type} {trees : ExtensionTrees Ptr} {tr : Translators}

/-- The records of the signatures have no names. -/
theorem signatureRecords_unnamed (signatures : List ProgramSignature)
    (casez : List (List (TuningCase Ptr))) (saves : List (Save Ptr)) :
    ∀ c ∈ (saves.foldl (JsonTuningDatabase.save trees tr)
      (.opened signatures casez)).signatureRecords.children, c.1 = "" := by
  induction saves using List.reverseRecOn with
  | nil => simp [JsonTuningDatabase.opened, PTree.empty]
  | append_singleton saves save ih =>
    rw [List.foldl_append, List.foldl_cons, List.foldl_nil]
    cases save with
    | tuningCase id tc => exact ih
    | signature id signature =>
      intro c hc
      cases List.mem_append.mp hc with
      | inl hold => exact ih c hold
      | inr hnew => rw [List.mem_singleton.mp hnew]

variable {Kind Content : Type} [DecidableEq Ptr] [DecidableEq Kind]
  {ext : Extensions Ptr Kind Content} {sort : Traversal (TuningCase Ptr)}

/-- The reader takes the list of the signatures for a program, which has no signature. -/
theorem ofDocument_commit {db : JsonTuningDatabase Ptr}
    (h : ∀ c ∈ db.signatureRecords.children, c.1 = "") :
    JsonTuningDatabase.ofDocument ext trees tr sort db.commit = none := by
  have hnone : db.signatureRecords.getChild "signature" = none := by
    rw [PTree.getChild_of_plain (by decide) (by decide), PTree.find, List.lookup_eq_none_iff]
    intro c hc
    rw [h c hc]
    rfl
  have hchildren : db.commit.children =
      [("signatures", db.signatureRecords), ("tuningcases", db.tuningCaseRecords)] := rfl
  rw [JsonTuningDatabase.ofDocument, hchildren, List.foldlM_cons, readBenchmark, hnone]
  rfl

variable {write_json : PTree → Option String} {read_json : String → Option PTree}

theorem not_reopens (hread : ∀ obj text, write_json obj = some text → read_json text = some obj)
    (signatures : List ProgramSignature) (casez : List (List (TuningCase Ptr)))
    (saves : List (Save Ptr)) :
    ¬ Reopens ext trees tr sort write_json read_json (.opened signatures casez) saves := by
  rintro ⟨text, obj, db', hwrite, hobj, hopen, -⟩
  obtain rfl := Option.some.inj ((hread _ text hwrite).symm.trans hobj)
  rw [ofDocument_commit (signatureRecords_unnamed signatures casez saves)] at hopen
  exact absurd hopen (by simp)

end Reopening

section Measurements

/-- Decimal numbers. -/
def decimal : Translators where
  writeInt v := v.repr
  readInt text := (readNumber text).map fun number => if number.1 then -(number.2 : ℤ) else number.2
  writeDouble t := t.num.repr
  readDouble text := (readNumber text).map fun number =>
    if number.1 then -(number.2 : ℚ) else number.2
  int v := by
    obtain ⟨negative, n, hnumber, hvalue⟩ := readNumber_int_repr v
    rw [hnumber, Option.map_some, hvalue]
  word := by decide

def noTrees : ExtensionTrees Empty where
  toPtree p := p.elim
  typeToParser _ := none

theorem tuningConfiguration_reads_back_two :
    TuningConfiguration.fromPtree noExtensions noTrees decimal
      (TuningConfiguration.toPtree noTrees decimal ⟨[⟨0, "a", none, 3⟩, ⟨0, "b", none, nullValue⟩]⟩) =
        some ⟨[⟨0, "a", none, 3⟩, ⟨0, "b", none, nullValue⟩]⟩ :=
  tuningConfiguration_reads_back (by simp) (by decide)

/-- One signature with one counter, saved for a program. -/
def oneSignature : List (Save Empty) :=
  [.signature "bt" ⟨OrdMap.ofList [("PAPI_TOT_INS", 5)]⟩]

def measurementsText : String :=
  "\x7b\"signatures\":[\x7b\"id\":\"bt\",\"signature\":\x7b\"PAPI_TOT_INS\":\"5\"\x7d\x7d]," ++
    "\"tuningcases\":\"\"\x7d"

def measurementsTree : PTree :=
  .node "" [("signatures", .node "" [("", .node "" [("id", .node "bt" []),
    ("signature", .node "" [("PAPI_TOT_INS", .node "5" [])])])]), ("tuningcases", .node "" [])]

/-- The writer, on that document. -/
def writeMeasurements : PTree → Option String
  | .node "" [("signatures", .node "" [("", .node "" [("id", .node "bt" []),
      ("signature", .node "" [("PAPI_TOT_INS", .node "5" [])])])]), ("tuningcases", .node "" [])] =>
    some measurementsText
  | _ => none

def readMeasurements (text : String) : Option PTree :=
  if text = measurementsText then some measurementsTree else none

theorem readMeasurements_of_write (obj : PTree) (text : String)
    (h : writeMeasurements obj = some text) : readMeasurements text = some obj := by
  rw [writeMeasurements.eq_def] at h
  split at h
  · rw [← Option.some.inj h, readMeasurements, if_pos rfl]
    rfl
  · exact absurd h (by simp)

theorem commit_oneSignature :
    (oneSignature.foldl (JsonTuningDatabase.save noTrees decimal) (.opened [] [])).commit =
      measurementsTree := by
  have hid := @PTree.put_new .empty "id" (by decide) (by decide) (by decide) "bt"
  have hcounter := @PTree.put_new .empty "PAPI_TOT_INS" (by decide) (by decide) (by decide) "5"
  have hsignature : ProgramSignature.toPtree decimal ⟨OrdMap.ofList [("PAPI_TOT_INS", 5)]⟩ =
      PTree.empty.put "PAPI_TOT_INS" "5" := rfl
  rw [oneSignature, List.foldl_cons, List.foldl_nil, JsonTuningDatabase.save,
    JsonTuningDatabase.saveSignature, hsignature, hid, hcounter]
  rfl

/-- The file of the one signature is written, but it is not opened as that database. -/
theorem not_reopens_oneSignature :
    writeMeasurements (oneSignature.foldl (JsonTuningDatabase.save noTrees decimal)
      (.opened [] [])).commit = some measurementsText ∧
    ¬ Reopens noExtensions noTrees decimal .inserted writeMeasurements readMeasurements
      (.opened [] []) oneSignature := by
  refine ⟨by rw [commit_oneSignature]; rfl, ?_⟩
  rintro ⟨text, obj, db', hwrite, hobj, hopen, -⟩
  obtain rfl := Option.some.inj ((readMeasurements_of_write _ text hwrite).symm.trans hobj)
  rw [ofDocument_commit (signatureRecords_unnamed [] [] oneSignature)] at hopen
  exact absurd hopen (by simp)

theorem not_reopens_measurements :
    (∀ obj text, writeMeasurements obj = some text → readMeasurements text = some obj) ∧
      ¬ Reopens noExtensions noTrees decimal .inserted writeMeasurements readMeasurements
        (.opened [] []) oneSignature :=
  ⟨readMeasurements_of_write, not_reopens readMeasurements_of_write [] [] oneSignature⟩

end Measurements

end ReadexPtf.TuningDatabase
