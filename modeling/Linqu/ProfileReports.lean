import Linqu.Json

/-!
# Profile reports as JSON

`to_json` puts the strings of a report between quotes as they are.
-/

set_option autoImplicit false

namespace Linqu.ProfileReports
open Linqu.Json

structure RingMetrics where
  level : UInt8 := 0
  depth : UInt16 := 0
  taskRingCapacity : UInt64 := 0
  taskRingPeakUsed : UInt64 := 0
  taskAllocCount : UInt64 := 0
  taskRetireCount : UInt64 := 0
  taskBlockCount : UInt64 := 0
  bufferRingCapacity : UInt64 := 0
  bufferRingPeakUsed : UInt64 := 0
  bufferAllocCount : UInt64 := 0
  bufferAllocBytes : UInt64 := 0
  bufferRetireBytes : UInt64 := 0
  scopeBeginCount : UInt64 := 0
  scopeEndCount : UInt64 := 0
  freeTensorCount : UInt64 := 0

/-- The positions in the rings are not reported. -/
structure RingSnapshot where
  level : UInt8 := 0
  depth : UInt16 := 0
  label : Text := []
  timestampUs : UInt64 := 0
  taskCapacity : UInt64 := 0
  taskUsed : UInt64 := 0
  bufferCapacity : UInt64 := 0
  bufferUsed : UInt64 := 0
  allocCount : UInt64 := 0
  retireCount : UInt64 := 0
  freeCount : UInt64 := 0

structure ProfileReport where
  nodeId : Text := []
  level : UInt8 := 0
  metrics : List RingMetrics := []
  snapshots : List RingSnapshot := []

def levelLabel (lv : UInt8) : Text :=
  if lv = 0 then "CORE".toList
  else if lv = 1 then "CHIP_DIE".toList
  else if lv = 2 then "CHIP".toList
  else if lv = 3 then "HOST".toList
  else if lv = 4 then "POD".toList
  else if lv = 5 then "CLOS1".toList
  else if lv = 6 then "CLOS2".toList
  else "UNKNOWN".toList

inductive Field where
  | label (s : Text)
  | count (k : ℕ)

def Field.print : Field → Text
  | .label s => '"'::(s++['"'])
  | .count k => Nat.toDigits 10 k

def RingMetrics.fields (m : RingMetrics) : List (Text × Field) :=
  [("level".toList,.label (levelLabel m.level)),
    ("depth".toList,.count m.depth.toNat),
    ("task_ring_capacity".toList,.count m.taskRingCapacity.toNat),
    ("task_ring_peak_used".toList,.count m.taskRingPeakUsed.toNat),
    ("task_alloc_count".toList,.count m.taskAllocCount.toNat),
    ("task_retire_count".toList,.count m.taskRetireCount.toNat),
    ("task_block_count".toList,.count m.taskBlockCount.toNat),
    ("buffer_ring_capacity".toList,.count m.bufferRingCapacity.toNat),
    ("buffer_ring_peak_used".toList,.count m.bufferRingPeakUsed.toNat),
    ("buffer_alloc_count".toList,.count m.bufferAllocCount.toNat),
    ("buffer_alloc_bytes".toList,.count m.bufferAllocBytes.toNat),
    ("buffer_retire_bytes".toList,.count m.bufferRetireBytes.toNat),
    ("scope_begin_count".toList,.count m.scopeBeginCount.toNat),
    ("scope_end_count".toList,.count m.scopeEndCount.toNat),
    ("free_tensor_count".toList,.count m.freeTensorCount.toNat)]

def RingSnapshot.fields (s : RingSnapshot) : List (Text × Field) :=
  [("label".toList,.label s.label),
    ("level".toList,.label (levelLabel s.level)),
    ("depth".toList,.count s.depth.toNat),
    ("timestamp_us".toList,.count s.timestampUs.toNat),
    ("task_capacity".toList,.count s.taskCapacity.toNat),
    ("task_used".toList,.count s.taskUsed.toNat),
    ("buffer_capacity".toList,.count s.bufferCapacity.toNat),
    ("buffer_used".toList,.count s.bufferUsed.toNat),
    ("alloc_count".toList,.count s.allocCount.toNat),
    ("retire_count".toList,.count s.retireCount.toNat),
    ("free_count".toList,.count s.freeCount.toNat)]

def blanks (n : ℕ) : Text := List.replicate n ' '

/-- `"name": value` behind an indent. -/
def line (indent name value : Text) : Text :=
  indent++['"']++name++['"',':',' ']++value

/-- The lines of one object, with a comma behind each but the last. -/
def printFields (indent : Text) : List (Text × Field) → Text
  | [] => []
  | [f] => line indent f.1 f.2.print++['\n']
  | f::fs => line indent f.1 f.2.print++[',','\n']++printFields indent fs

/-- The loop over the metrics, and the one over the snapshots. -/
def printObjects : List (List (Text × Field)) → Text
  | [] => []
  | o::os => blanks 4++['{','\n']++printFields (blanks 6) o++blanks 4++['}']++
      (if os = [] then [] else [','])++['\n']++printObjects os

def ProfileReport.toJson (r : ProfileReport) : Text :=
  ['{','\n']++
    line (blanks 2) "node_id".toList (Field.label r.nodeId).print++[',','\n']++
    line (blanks 2) "level".toList (Field.label (levelLabel r.level)).print++[',','\n']++
    line (blanks 2) "metrics".toList
      (['[','\n']++printObjects (r.metrics.map RingMetrics.fields)++blanks 2++[']'])++
      [',','\n']++
    line (blanks 2) "snapshots".toList
      (['[','\n']++printObjects (r.snapshots.map RingSnapshot.fields)++blanks 2++[']'])++
      ['\n']++
  ['}','\n']

/-! What the report says. -/

def Field.json : Field → Value
  | .label s => .str (codes s)
  | .count k => .num k 0

def jsonFields (fs : List (Text × Field)) : Value :=
  .obj (fs.map fun f => (codes f.1,f.2.json))

def ProfileReport.json (r : ProfileReport) : Value :=
  .obj [(codes "node_id".toList,.str (codes r.nodeId)),
    (codes "level".toList,.str (codes (levelLabel r.level))),
    (codes "metrics".toList,.arr (r.metrics.map fun m => jsonFields m.fields)),
    (codes "snapshots".toList,.arr (r.snapshots.map fun s => jsonFields s.fields))]

theorem blank_blanks (n : ℕ) : Blank (blanks n) := by
  simp [Blank, blanks, isSpace]

def Field.Ok : Field → Prop
  | .label s => Plain s
  | .count _ => True

def fieldPiece (indent : Text) (f : Text × Field) : Piece (List ℕ × Value) :=
  ⟨line indent f.1 f.2.print,(codes f.1,f.2.json),f.2.Ok⟩

theorem reads_line (n : ℕ) {indent name follow : Text} {e : Piece Value} (hi : Blank indent)
    (hname : Plain name) (h : Reads (value n) follow e) :
    Reads (member (value n)) follow ⟨line indent name e.text,(codes name,e.value),e.ok⟩ := by
  have hmember := (reads_member hname (blank_blanks 1) h).space skipsSpace_member hi
  simpa [line, blanks] using hmember

theorem reads_field (n : ℕ) (f : Field) :
    Reads (value (n+1)) [',','\n'] ⟨f.print,f.json,f.Ok⟩ := by
  cases f with
  | label s => exact reads_quoted n fun rest r => string_unescaped s rest r
  | count k => exact reads_count n k ⟨',',['\n'],rfl,by decide,by decide,by decide,by decide⟩

/-- The last line of an object is a number. -/
def Closed : List (Text × Field) → Prop
  | [] => False
  | [f] => ∃ k, f.2 = .count k
  | _::fs => Closed fs

theorem printFields_joined (indent outer : Text) {fs : List (Text × Field)} (h : fs ≠ []) :
    printFields indent fs++outer =
      joined [',','\n'] ('\n'::outer) (fs.map (fieldPiece indent)) := by
  induction fs with
  | nil => exact absurd rfl h
  | cons f fs ih =>
    cases fs with
    | nil => simp [printFields, joined, fieldPiece]
    | cons g fs =>
      have hline : printFields indent (f::g::fs) =
          line indent f.1 f.2.print++([',','\n']++printFields indent (g::fs)) := by
        simp [printFields]
      rw [hline, List.append_assoc, List.append_assoc, ih (by simp)]
      rfl

theorem allRead_fields (n : ℕ) {indent stop : Text} (hi : Blank indent) (hstop : Ends stop)
    {fs : List (Text × Field)} (hkeys : ∀ f ∈ fs, Plain f.1) (hfs : Closed fs) :
    AllRead (member (value (n+1))) [',','\n'] stop (fs.map (fieldPiece indent)) := by
  induction fs with
  | nil => exact hfs.elim
  | cons f fs ih =>
    cases fs with
    | nil =>
      obtain ⟨k,hk⟩ := hfs
      have hcount := reads_line (n+1) hi (hkeys f (by simp)) (reads_count n k hstop)
      simpa [AllRead, fieldPiece, hk, Field.print, Field.json, Field.Ok] using hcount
    | cons g fs =>
      have hfirst := reads_line (n+1) hi (hkeys f (by simp)) (reads_field n f.2)
      exact ⟨hfirst,ih (fun x hx => hkeys x (by simp [hx])) hfs⟩

/-- One object, in front of anything. -/
theorem reads_fields (n : ℕ) {indent outer follow : Text} (hi : Blank indent) (ho : Blank outer)
    {fs : List (Text × Field)} (hkeys : ∀ f ∈ fs, Plain f.1) (hfs : Closed fs) :
    Reads (value (n+2)) follow ⟨['{','\n']++printFields indent fs++outer++['}'],jsonFields fs,
      ∀ f ∈ fs, f.2.Ok⟩ := by
  have hstop : Ends ('\n'::(outer++['}'])) :=
    ⟨'\n',_,rfl,by decide,by decide,by decide,by decide⟩
  have hb : Brackets '}' [',','\n'] ('\n'::(outer++['}'])) :=
    brackets_lines ho (by simp [isSpace])
  cases fs with
  | nil => exact hfs.elim
  | cons f fs =>
    have hopen : ∀ cs, expect '}' ((fieldPiece indent f).text++cs) = none := by
      intro cs
      simp [fieldPiece, line, expect_append hi, expect_cons (show isSpace '"' = false by decide)]
    have hlist := list_joined skipsSpace_member hb follow blank_line hopen
      (allRead_fields n hi hstop hkeys hfs)
    apply (reads_object hlist).congr
    · rw [← List.map_cons, ← printFields_joined indent (outer++['}']) (by simp)]
      simp
    · simp [jsonFields, fieldPiece]
    · rw [← List.map_cons]
      simp only [List.forall_mem_map, fieldPiece]

def objectPiece (o : List (Text × Field)) : Piece Value :=
  ⟨blanks 4++(['{','\n']++printFields (blanks 6) o++blanks 4++['}']),jsonFields o,
    ∀ f ∈ o, f.2.Ok⟩

theorem printObjects_joined (outer : Text) {os : List (List (Text × Field))} (h : os ≠ []) :
    printObjects os++outer = joined [',','\n'] ('\n'::outer) (os.map objectPiece) := by
  induction os with
  | nil => exact absurd rfl h
  | cons o os ih =>
    cases os with
    | nil => simp [printObjects, joined, objectPiece]
    | cons o' os =>
      have hfirst : printObjects (o::o'::os) =
          (objectPiece o).text++([',','\n']++printObjects (o'::os)) := by
        rw [printObjects]
        simp [objectPiece]
      rw [hfirst, List.append_assoc, List.append_assoc, ih (by simp)]
      rfl

/-- The lines of an object are named and end as they should. -/
def Shaped (o : List (Text × Field)) : Prop := (∀ f ∈ o, Plain f.1) ∧ Closed o

theorem reads_objects (n : ℕ) {follow : Text} {os : List (List (Text × Field))}
    (hos : ∀ o ∈ os, Shaped o) :
    Reads (value (n+3)) follow ⟨['[','\n']++printObjects os++blanks 2++[']'],
      .arr (os.map jsonFields),∀ o ∈ os, ∀ f ∈ o, f.2.Ok⟩ := by
  cases os with
  | nil =>
    have hlist : Reads (list (value (n+2)) ']') follow ⟨['\n']++blanks 2++[']'],[],True⟩ :=
      list_nil (blank_append.mpr ⟨blank_line,blank_blanks 2⟩) (by simp [isSpace])
    apply (reads_array hlist).congr
    · simp [printObjects]
    · simp
    · simp
  | cons o os =>
    have hb : Brackets ']' [',','\n'] ('\n'::(blanks 2++[']'])) :=
      brackets_lines (blank_blanks 2) (by simp [isSpace])
    have hopen : ∀ cs, expect ']' ((objectPiece o).text++cs) = none := by
      intro cs
      simp only [objectPiece, List.append_assoc]
      rw [expect_append (blank_blanks 4)]
      exact expect_cons (by simp [isSpace]) _
    have hall : AllRead (value (n+2)) [',','\n'] ('\n'::(blanks 2++[']']))
        ((o::os).map objectPiece) := by
      apply allRead_of
      simp only [List.forall_mem_map]
      intro o' ho'
      have hread : ∀ follow, Reads (value (n+2)) follow (objectPiece o') := fun follow =>
        (reads_fields n (blank_blanks 6) (blank_blanks 4) (hos o' ho').1 (hos o' ho').2).space
          (skipsSpace_value _) (blank_blanks 4)
      exact ⟨hread _,hread _⟩
    have hlist := list_joined (skipsSpace_value _) hb follow blank_line hopen hall
    apply (reads_array hlist).congr
    · rw [← List.map_cons, ← printObjects_joined _ (by simp)]
      simp
    · simp [objectPiece]
    · rw [← List.map_cons]
      simp only [List.forall_mem_map, objectPiece]

theorem plain_levelLabel (lv : UInt8) : Plain (levelLabel lv) := by
  unfold levelLabel
  split_ifs <;> simp [Plain]

theorem shaped_metrics (m : RingMetrics) : Shaped m.fields := by
  constructor
  · simp [RingMetrics.fields, Plain]
  · exact ⟨_,rfl⟩

theorem shaped_snapshot (s : RingSnapshot) : Shaped s.fields := by
  constructor
  · simp [RingSnapshot.fields, Plain]
  · exact ⟨_,rfl⟩

theorem metrics_ok (m : RingMetrics) : ∀ f ∈ m.fields, f.2.Ok := by
  simp [RingMetrics.fields, Field.Ok, plain_levelLabel]

theorem snapshot_ok (s : RingSnapshot) : (∀ f ∈ s.fields, f.2.Ok) ↔ Plain s.label := by
  simp [RingSnapshot.fields, Field.Ok, plain_levelLabel]

def sectionPiece (name : Text) (os : List (List (Text × Field))) : Piece (List ℕ × Value) :=
  ⟨line (blanks 2) name (['[','\n']++printObjects os++blanks 2++[']']),
    (codes name,.arr (os.map jsonFields)),∀ o ∈ os, ∀ f ∈ o, f.2.Ok⟩

def reportPieces (r : ProfileReport) : List (Piece (List ℕ × Value)) :=
  [fieldPiece (blanks 2) ("node_id".toList,.label r.nodeId),
    fieldPiece (blanks 2) ("level".toList,.label (levelLabel r.level)),
    sectionPiece "metrics".toList (r.metrics.map RingMetrics.fields),
    sectionPiece "snapshots".toList (r.snapshots.map RingSnapshot.fields)]

def reportPiece (r : ProfileReport) : Piece Value :=
  ⟨['{','\n']++joined [',','\n'] ['\n','}'] (reportPieces r),r.json,
    Plain r.nodeId ∧ ∀ s ∈ r.snapshots, Plain s.label⟩

theorem reads_report (n : ℕ) (r : ProfileReport) :
    Reads (value (n+4)) ['\n'] (reportPiece r) := by
  have hb : Brackets '}' [',','\n'] ['\n','}'] :=
    brackets_lines blank_nil (by simp [isSpace])
  have hfield : ∀ (name : Text) (f : Field), Plain name →
      Reads (member (value (n+3))) [',','\n'] (fieldPiece (blanks 2) (name,f)) :=
    fun name f hname => reads_line (n+3) (blank_blanks 2) hname (reads_field (n+2) f)
  have hsection : ∀ (name : Text) (os : List (List (Text × Field))) follow, Plain name →
      (∀ o ∈ os, Shaped o) → Reads (member (value (n+3))) follow (sectionPiece name os) :=
    fun name os follow hname hos =>
      reads_line (n+3) (blank_blanks 2) hname (reads_objects n hos)
  have hall : AllRead (member (value (n+3))) [',','\n'] ['\n','}'] (reportPieces r) := by
    refine ⟨hfield _ _ (by simp [Plain]),hfield _ _ (by simp [Plain]),
      hsection _ _ _ (by simp [Plain]) ?_,hsection _ _ _ (by simp [Plain]) ?_⟩
    · simp [shaped_metrics]
    · simp [shaped_snapshot]
  have hopen : ∀ cs, expect '}' ((fieldPiece (blanks 2)
      ("node_id".toList,.label r.nodeId)).text++cs) = none := by
    intro cs
    simp only [fieldPiece, line, List.append_assoc]
    rw [expect_append (blank_blanks 2)]
    exact expect_cons (by simp [isSpace]) _
  apply (reads_object (list_joined skipsSpace_member hb ['\n'] blank_line hopen hall)).congr
  · rfl
  · simp [fieldPiece, sectionPiece, ProfileReport.json, Field.json]
  · have hlevel : (Field.label (levelLabel r.level)).Ok := plain_levelLabel r.level
    have hmetrics : ∀ m ∈ r.metrics, ∀ f ∈ m.fields, f.2.Ok := fun m _ => metrics_ok m
    simp only [List.mem_cons, List.not_mem_nil, or_false, forall_eq_or_imp, forall_eq,
      fieldPiece, sectionPiece, List.forall_mem_map, snapshot_ok, hlevel, true_and]
    exact ⟨fun h => ⟨h.1,h.2.2⟩,fun h => ⟨h.1,hmetrics,h.2⟩⟩

/-- A report is read back as what it says exactly when nothing in its strings
has to be escaped. -/
theorem toJson_iff (r : ProfileReport) :
    parse r.toJson = some r.json ↔ Plain r.nodeId ∧ ∀ s ∈ r.snapshots, Plain s.label := by
  have htext : r.toJson = (reportPiece r).text++['\n'] := by
    simp only [ProfileReport.toJson, reportPiece, reportPieces, joined, fieldPiece, sectionPiece,
      List.append_assoc, List.cons_append, List.nil_append]
  have hlen : 4 ≤ r.toJson.length := by
    simp [htext, reportPiece, reportPieces, joined]
    omega
  obtain ⟨n,hn⟩ := Nat.exists_eq_add_of_le hlen
  have hread := reads_report n r
  rw [Nat.add_comm, ← hn, htext] at hread
  rw [htext]
  exact parse_iff blank_line hread

end Linqu.ProfileReports
