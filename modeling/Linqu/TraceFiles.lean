import Linqu.ProfileReports

/-!
# Traces as JSON

`write_json` escapes quotes, backslashes, line ends and tabs and writes every
other character as it is. The file is taken to open; the writer's lock is not
modelled.
-/

set_option autoImplicit false

namespace Linqu.TraceFiles
open Linqu.Json

structure TraceEvent where
  name : Text
  cat : Text
  pid : Int32
  tid : Int32
  ts : Int64
  dur : Int64
  args : Text

inductive MetaName where
  | processName
  | threadName

def MetaName.text : MetaName → Text
  | .processName => "process_name".toList
  | .threadName => "thread_name".toList

structure MetaEvent where
  pid : Int32
  tid : Int32
  name : MetaName
  value : Text

structure TraceWriter where
  enabled : Bool := false
  events : List TraceEvent := []
  metas : List MetaEvent := []

namespace TraceWriter

def setEnabled (tw : TraceWriter) (v : Bool) : TraceWriter := { tw with enabled := v }

def addComplete (tw : TraceWriter) (e : TraceEvent) : TraceWriter :=
  if tw.enabled then { tw with events := tw.events++[e] } else tw

def setProcessName (tw : TraceWriter) (pid : Int32) (name : Text) : TraceWriter :=
  if tw.enabled then { tw with metas := tw.metas++[⟨pid,0,.processName,name⟩] } else tw

def setThreadName (tw : TraceWriter) (pid tid : Int32) (name : Text) : TraceWriter :=
  if tw.enabled then { tw with metas := tw.metas++[⟨pid,tid,.threadName,name⟩] } else tw

end TraceWriter

def escapeChar (c : Char) : Text :=
  if c = '"' then ['\\','"']
  else if c = '\\' then ['\\','\\']
  else if c = '\n' then ['\\','n']
  else if c = '\t' then ['\\','t']
  else [c]

def jsonEscape (s : Text) : Text := s.flatMap escapeChar

def quoted (s : Text) : Text := ['"']++s++['"']

def entry (name value : Text) : Text := ['"']++name++['"',':']++value

def MetaEvent.print (m : MetaEvent) : Text :=
  ['{']++entry "ph".toList (quoted "M".toList)++
    [',']++entry "pid".toList (integer m.pid.toInt)++
    [',']++entry "tid".toList (integer m.tid.toInt)++
    [',']++entry "name".toList (quoted m.name.text)++
    [',']++entry "args".toList
      (['{']++entry "name".toList (quoted (jsonEscape m.value))++['}'])++['}']

def TraceEvent.print (e : TraceEvent) : Text :=
  ['{']++entry "ph".toList (quoted "X".toList)++
    [',']++entry "name".toList (quoted (jsonEscape e.name))++
    [',']++entry "cat".toList (quoted (jsonEscape e.cat))++
    [',']++entry "pid".toList (integer e.pid.toInt)++
    [',']++entry "tid".toList (integer e.tid.toInt)++
    [',']++entry "ts".toList (integer e.ts.toInt)++
    [',']++entry "dur".toList (integer e.dur.toInt)++
    (if e.args = [] then []
      else [',']++entry "args".toList
        (['{']++entry "detail".toList (quoted (jsonEscape e.args))++['}']))++['}']

/-- One of the two loops, with the flag that no event was written yet. -/
def printEvents : Bool → List Text → Text
  | _, [] => []
  | first, t::ts => (if first then [] else [',','\n'])++t++printEvents false ts

def TraceWriter.writeJson (tw : TraceWriter) : Text :=
  ['{']++entry "traceEvents".toList (['[','\n']++printEvents true (tw.metas.map MetaEvent.print)++
    printEvents tw.metas.isEmpty (tw.events.map TraceEvent.print)++['\n',']'])++['}','\n']

/-! What the trace says. -/

def MetaEvent.json (m : MetaEvent) : Value :=
  .obj [(codes "ph".toList,.str (codes "M".toList)),
    (codes "pid".toList,.num m.pid.toInt 0),
    (codes "tid".toList,.num m.tid.toInt 0),
    (codes "name".toList,.str (codes m.name.text)),
    (codes "args".toList,.obj [(codes "name".toList,.str (codes m.value))])]

def TraceEvent.json (e : TraceEvent) : Value :=
  .obj ([(codes "ph".toList,.str (codes "X".toList)),
    (codes "name".toList,.str (codes e.name)),
    (codes "cat".toList,.str (codes e.cat)),
    (codes "pid".toList,.num e.pid.toInt 0),
    (codes "tid".toList,.num e.tid.toInt 0),
    (codes "ts".toList,.num e.ts.toInt 0),
    (codes "dur".toList,.num e.dur.toInt 0)]++
    (if e.args = [] then []
      else [(codes "args".toList,.obj [(codes "detail".toList,.str (codes e.args))])]))

def TraceWriter.json (tw : TraceWriter) : Value :=
  .obj [(codes "traceEvents".toList,
    .arr (tw.metas.map MetaEvent.json++tw.events.map TraceEvent.json))]

/-- The only control characters are the two that are escaped. -/
def Escapable (s : Text) : Prop := ∀ c ∈ s, c.toNat < 32 → c = '\n' ∨ c = '\t'

instance (s : Text) : Decidable (Escapable s) :=
  inferInstanceAs (Decidable (∀ c ∈ s, c.toNat < 32 → c = '\n' ∨ c = '\t'))

theorem units_escapeChar (c : Char) (rest : Text) :
    units .plain (escapeChar c++rest) =
      if c.toNat < 32 → c = '\n' ∨ c = '\t' then
        (units .plain rest).map fun u => (c.toNat::u.1,u.2)
      else none := by
  by_cases hq : c = '"'
  · simp [escapeChar, units, escapeOf, hq]
  by_cases hb : c = '\\'
  · simp [escapeChar, units, escapeOf, hb]
  by_cases hn : c = '\n'
  · simp [escapeChar, units, escapeOf, hn]
  by_cases ht : c = '\t'
  · simp [escapeChar, units, escapeOf, ht]
  · by_cases hc : c.toNat < 32 <;> simp [escapeChar, units, hq, hb, hn, ht, hc]

theorem units_escape (s rest : Text) :
    units .plain (jsonEscape s++rest) =
      if Escapable s then (units .plain rest).map fun u => (codes s++u.1,u.2) else none := by
  induction s with
  | nil => simp [jsonEscape, Escapable, codes]
  | cons c s ih =>
    have hcons : Escapable (c::s) ↔ (c.toNat < 32 → c = '\n' ∨ c = '\t') ∧ Escapable s := by
      simp [Escapable]
    have hstep : jsonEscape (c::s)++rest = escapeChar c++(jsonEscape s++rest) := by
      simp [jsonEscape]
    rw [hstep, units_escapeChar, ih]
    by_cases hc : c.toNat < 32 → c = '\n' ∨ c = '\t' <;> by_cases hs : Escapable s <;>
      simp [hcons, hc, hs, codes, Function.comp_def]

theorem string_escaped (s rest r : Text) :
    string (jsonEscape s ++ '"'::rest) = some (codes s,r) ↔ Escapable s ∧ r = rest := by
  by_cases hs : Escapable s
  · simp [string, units_escape, units, hs, pair_codes, eq_comm]
  · simp [string, units_escape, hs]

/-! Pieces: each of them is read in front of a comma and of a closing brace. -/

def textPiece (s : Text) : Piece Value := ⟨quoted s,.str (codes s),True⟩

def escapedPiece (s : Text) : Piece Value := ⟨quoted (jsonEscape s),.str (codes s),Escapable s⟩

def intPiece (z : ℤ) : Piece Value := ⟨integer z,.num z 0,True⟩

def entryPiece (name : Text) (e : Piece Value) : Piece (List ℕ × Value) :=
  ⟨entry name e.text,(codes name,e.value),e.ok⟩

def objectPiece (ms : List (Piece (List ℕ × Value))) : Piece Value :=
  ⟨['{']++joined [','] ['}'] ms,.obj (ms.map Piece.value),∀ m ∈ ms, m.ok⟩

def argsPiece (name value : Text) : Piece (List ℕ × Value) :=
  entryPiece "args".toList (objectPiece [entryPiece name (escapedPiece value)])

def MetaEvent.piece (m : MetaEvent) : Piece Value :=
  objectPiece [entryPiece "ph".toList (textPiece "M".toList),
    entryPiece "pid".toList (intPiece m.pid.toInt),
    entryPiece "tid".toList (intPiece m.tid.toInt),
    entryPiece "name".toList (textPiece m.name.text),
    argsPiece "name".toList m.value]

def TraceEvent.piece (e : TraceEvent) : Piece Value :=
  objectPiece ([entryPiece "ph".toList (textPiece "X".toList),
    entryPiece "name".toList (escapedPiece e.name),
    entryPiece "cat".toList (escapedPiece e.cat),
    entryPiece "pid".toList (intPiece e.pid.toInt),
    entryPiece "tid".toList (intPiece e.tid.toInt),
    entryPiece "ts".toList (intPiece e.ts.toInt),
    entryPiece "dur".toList (intPiece e.dur.toInt)]++
    (if e.args = [] then [] else [argsPiece "detail".toList e.args]))

theorem meta_piece (m : MetaEvent) :
    m.piece.text = m.print ∧ m.piece.value = m.json ∧ (m.piece.ok ↔ Escapable m.value) := by
  refine ⟨?_,?_,?_⟩
  · simp [MetaEvent.piece, MetaEvent.print, objectPiece, argsPiece, entryPiece, escapedPiece,
      textPiece, intPiece, joined]
  · simp [MetaEvent.piece, MetaEvent.json, objectPiece, argsPiece, entryPiece, escapedPiece,
      textPiece, intPiece]
  · simp [MetaEvent.piece, objectPiece, argsPiece, entryPiece, escapedPiece, textPiece, intPiece]

theorem event_piece (e : TraceEvent) :
    e.piece.text = e.print ∧ e.piece.value = e.json ∧
      (e.piece.ok ↔ Escapable e.name ∧ Escapable e.cat ∧ Escapable e.args) := by
  by_cases ha : e.args = []
  · refine ⟨?_,?_,?_⟩
    · simp [TraceEvent.piece, TraceEvent.print, objectPiece, entryPiece, escapedPiece, textPiece,
        intPiece, joined, ha]
    · simp [TraceEvent.piece, TraceEvent.json, objectPiece, entryPiece, escapedPiece, textPiece,
        intPiece, ha]
    · simp [TraceEvent.piece, objectPiece, entryPiece, escapedPiece, textPiece, intPiece, ha,
        Escapable]
  · refine ⟨?_,?_,?_⟩
    · simp [TraceEvent.piece, TraceEvent.print, objectPiece, argsPiece, entryPiece, escapedPiece,
        textPiece, intPiece, joined, ha]
    · simp [TraceEvent.piece, TraceEvent.json, objectPiece, argsPiece, entryPiece, escapedPiece,
        textPiece, intPiece, ha]
    · simp [TraceEvent.piece, objectPiece, argsPiece, entryPiece, escapedPiece, textPiece,
        intPiece, ha]

/-- Read in front of a comma and of a closing brace. -/
def Inline (n : ℕ) (e : Piece Value) : Prop :=
  Reads (value n) [','] e ∧ Reads (value n) ['}'] e

theorem inline_of {n : ℕ} {e : Piece Value} (h : ∀ follow, Reads (value n) follow e) :
    Inline n e := ⟨h _,h _⟩

theorem inline_text (n : ℕ) {s : Text} (h : Plain s) : Inline (n+1) (textPiece s) := by
  apply inline_of
  intro follow
  apply reads_quoted n
  intro rest r
  simp [string_plain h, eq_comm]

theorem inline_escaped (n : ℕ) (s : Text) : Inline (n+1) (escapedPiece s) := by
  apply inline_of
  intro follow
  exact reads_quoted n fun rest r => string_escaped s (follow++rest) r

theorem inline_int (n : ℕ) (z : ℤ) : Inline (n+1) (intPiece z) :=
  ⟨reads_integer n z ⟨',',[],rfl,by decide,by decide,by decide,by decide⟩,
    reads_integer n z ⟨'}',[],rfl,by decide,by decide,by decide,by decide⟩⟩

/-- An entry with a readable name. -/
def Entry (n : ℕ) (m : Piece (List ℕ × Value)) : Prop :=
  ∃ name e, m = entryPiece name e ∧ Plain name ∧ Inline n e

theorem entry_of {n : ℕ} {name : Text} {e : Piece Value} (hname : Plain name)
    (he : Inline n e) : Entry n (entryPiece name e) := ⟨name,e,rfl,hname,he⟩

theorem Entry.reads {n : ℕ} {m : Piece (List ℕ × Value)} (h : Entry n m) :
    Reads (member (value n)) [','] m ∧ Reads (member (value n)) ['}'] m := by
  obtain ⟨name,e,rfl,hname,he⟩ := h
  have hread : ∀ follow, Reads (value n) follow e →
      Reads (member (value n)) follow (entryPiece name e) := fun follow h => by
    simpa [entryPiece, entry] using reads_member hname blank_nil h
  exact ⟨hread _ he.1,hread _ he.2⟩

theorem reads_entries (n : ℕ) (follow : Text) {m : Piece (List ℕ × Value)}
    {ms : List (Piece (List ℕ × Value))} (h : ∀ x ∈ m::ms, Entry n x) :
    Reads (value (n+1)) follow (objectPiece (m::ms)) := by
  have hb : Brackets '}' [','] ['}'] :=
    { sep := ⟨[],blank_nil,rfl⟩
      stop := ⟨[],blank_nil,rfl⟩
      close := by simp [isSpace] }
  have hopen : ∀ cs, expect '}' (m.text++cs) = none := by
    intro cs
    obtain ⟨name,e,rfl,-,-⟩ := h m (by simp)
    exact expect_cons (show isSpace '"' = false by decide) _
  have hall : AllRead (member (value n)) [','] ['}'] (m::ms) :=
    allRead_of fun x hx => (h x hx).reads
  exact reads_object (list_joined skipsSpace_member hb follow blank_nil hopen hall)

theorem entry_args (n : ℕ) {name : Text} (value : Text) (hname : Plain name) :
    Entry (n+2) (argsPiece name value) := by
  apply entry_of
  · simp [Plain]
  · apply inline_of
    intro follow
    apply reads_entries
    simp only [List.mem_singleton, forall_eq]
    exact entry_of hname (inline_escaped n value)

theorem plain_metaName (name : MetaName) : Plain name.text := by
  cases name with
  | processName =>
    show Plain "process_name".toList
    simp [Plain]
  | threadName =>
    show Plain "thread_name".toList
    simp [Plain]

theorem reads_meta (n : ℕ) (follow : Text) (m : MetaEvent) :
    Reads (value (n+3)) follow m.piece := by
  have hname := plain_metaName m.name
  have hargs := entry_args n m.value (show Plain "name".toList by simp [Plain])
  unfold MetaEvent.piece
  apply reads_entries
  intro x hx
  simp only [List.mem_cons, List.not_mem_nil, or_false] at hx
  rcases hx with rfl | rfl | rfl | rfl | rfl
  · exact entry_of (by simp [Plain]) (inline_text _ (by simp [Plain]))
  · exact entry_of (by simp [Plain]) (inline_int _ _)
  · exact entry_of (by simp [Plain]) (inline_int _ _)
  · exact entry_of (by simp [Plain]) (inline_text _ hname)
  · exact hargs

theorem reads_event (n : ℕ) (follow : Text) (e : TraceEvent) :
    Reads (value (n+3)) follow e.piece := by
  have hargs := entry_args n e.args (show Plain "detail".toList by simp [Plain])
  have hrest : ∀ x ∈ (if e.args = [] then [] else [argsPiece "detail".toList e.args]),
      Entry (n+2) x := by
    by_cases ha : e.args = []
    · simp [ha]
    · simpa [ha] using hargs
  unfold TraceEvent.piece
  rw [List.cons_append]
  apply reads_entries
  intro x hx
  rw [← List.cons_append, List.mem_append] at hx
  rcases hx with hx | hx
  · simp only [List.mem_cons, List.not_mem_nil, or_false] at hx
    rcases hx with rfl | rfl | rfl | rfl | rfl | rfl | rfl
    · exact entry_of (by simp [Plain]) (inline_text _ (by simp [Plain]))
    · exact entry_of (by simp [Plain]) (inline_escaped _ _)
    · exact entry_of (by simp [Plain]) (inline_escaped _ _)
    · exact entry_of (by simp [Plain]) (inline_int _ _)
    · exact entry_of (by simp [Plain]) (inline_int _ _)
    · exact entry_of (by simp [Plain]) (inline_int _ _)
    · exact entry_of (by simp [Plain]) (inline_int _ _)
  · exact hrest x hx

/-- Everything that is listed, metadata first. -/
def TraceWriter.pieces (tw : TraceWriter) : List (Piece Value) :=
  tw.metas.map MetaEvent.piece++tw.events.map TraceEvent.piece

theorem printEvents_append (ts us : List Text) (first : Bool) :
    printEvents first (ts++us) = printEvents first ts++printEvents (first && ts.isEmpty) us := by
  induction ts generalizing first with
  | nil => simp [printEvents]
  | cons t ts ih => simp [printEvents, ih]

theorem printEvents_joined (outer : Text) (es : List (Piece Value)) :
    printEvents true (es.map Piece.text)++outer = joined [',','\n'] outer es := by
  cases es with
  | nil => simp [printEvents, joined]
  | cons e es =>
    induction es generalizing e with
    | nil => simp [printEvents, joined]
    | cons d es ih =>
      have hd := ih d
      simp only [printEvents, List.map_cons, if_true, List.nil_append, List.append_assoc] at hd
      simp [printEvents, joined, hd]

def TraceWriter.array (tw : TraceWriter) : Piece Value :=
  ⟨['[','\n']++joined [',','\n'] ['\n',']'] tw.pieces,.arr (tw.pieces.map Piece.value),
    ∀ e ∈ tw.pieces, e.ok⟩

def TraceWriter.piece (tw : TraceWriter) : Piece Value :=
  objectPiece [entryPiece "traceEvents".toList tw.array]

theorem reads_listed (n : ℕ) (follow : Text) (tw : TraceWriter) :
    ∀ e ∈ tw.pieces, Reads (value (n+3)) follow e := by
  intro e he
  rcases List.mem_append.mp he with he | he
  · obtain ⟨m,-,rfl⟩ := List.mem_map.mp he
    exact reads_meta n follow m
  · obtain ⟨event,-,rfl⟩ := List.mem_map.mp he
    exact reads_event n follow event

theorem listed_object (tw : TraceWriter) : ∀ e ∈ tw.pieces, ∃ ms, e = objectPiece ms := by
  intro e he
  rcases List.mem_append.mp he with he | he
  · obtain ⟨m,-,rfl⟩ := List.mem_map.mp he
    exact ⟨_,rfl⟩
  · obtain ⟨event,-,rfl⟩ := List.mem_map.mp he
    exact ⟨_,rfl⟩

theorem inline_array (n : ℕ) (tw : TraceWriter) : Inline (n+4) tw.array := by
  apply inline_of
  intro follow
  have hb : Brackets ']' [',','\n'] ['\n',']'] :=
    brackets_lines blank_nil (by simp [isSpace])
  have hall : AllRead (value (n+3)) [',','\n'] ['\n',']'] tw.pieces :=
    allRead_of fun e he => ⟨reads_listed n _ tw e he,reads_listed n _ tw e he⟩
  have hobject := listed_object tw
  unfold TraceWriter.array
  cases hp : tw.pieces with
  | nil =>
    have hlist : Reads (list (value (n+3)) ']') follow ⟨['\n','\n']++[']'],[],True⟩ :=
      list_nil (by simp [Blank, isSpace]) (by simp [isSpace])
    apply (reads_array hlist).congr
    · simp [joined]
    · simp
    · simp
  | cons e es =>
    rw [hp] at hall hobject
    have hopen : ∀ cs, expect ']' (e.text++cs) = none := by
      intro cs
      obtain ⟨ms,rfl⟩ := hobject e (by simp)
      exact expect_cons (show isSpace '{' = false by simp [isSpace]) _
    exact reads_array (list_joined (skipsSpace_value _) hb follow blank_line hopen hall)

theorem writeJson_text (tw : TraceWriter) : tw.writeJson = tw.piece.text++['\n'] := by
  have hmetas : tw.metas.map MetaEvent.print = (tw.metas.map MetaEvent.piece).map Piece.text := by
    simp [Function.comp_def, meta_piece]
  have hevents : tw.events.map TraceEvent.print =
      (tw.events.map TraceEvent.piece).map Piece.text := by
    simp [Function.comp_def, event_piece]
  have hlists := printEvents_joined ['\n',']'] tw.pieces
  simp only [TraceWriter.pieces, List.map_append, printEvents_append, Bool.true_and] at hlists
  simp only [TraceWriter.writeJson, hmetas, hevents, TraceWriter.piece, TraceWriter.array,
    objectPiece, entryPiece, joined, TraceWriter.pieces]
  rw [← hlists]
  simp

/-- A trace is read back as what was recorded exactly when no control
character but line ends and tabs is in its strings. -/
theorem writeJson_iff (tw : TraceWriter) :
    parse tw.writeJson = some tw.json ↔ (∀ m ∈ tw.metas, Escapable m.value) ∧
      ∀ e ∈ tw.events, Escapable e.name ∧ Escapable e.cat ∧ Escapable e.args := by
  have hlen : 5 ≤ tw.writeJson.length := by
    simp [TraceWriter.writeJson, entry]
  obtain ⟨n,hn⟩ := Nat.exists_eq_add_of_le hlen
  have hread : Reads (value (n+5)) ['\n'] tw.piece := by
    unfold TraceWriter.piece
    apply reads_entries
    simp only [List.mem_singleton, forall_eq]
    exact entry_of (by simp [Plain]) (inline_array n tw)
  have hvalue : tw.piece.value = tw.json := by
    simp [TraceWriter.piece, TraceWriter.array, TraceWriter.pieces, TraceWriter.json, objectPiece,
      entryPiece, Function.comp_def, meta_piece, event_piece]
  have hok : tw.piece.ok ↔ (∀ m ∈ tw.metas, Escapable m.value) ∧
      ∀ e ∈ tw.events, Escapable e.name ∧ Escapable e.cat ∧ Escapable e.args := by
    simp only [TraceWriter.piece, TraceWriter.array, TraceWriter.pieces, objectPiece, entryPiece,
      List.mem_singleton, forall_eq, List.forall_mem_append, List.forall_mem_map, meta_piece,
      event_piece]
  rw [Nat.add_comm, ← hn, writeJson_text] at hread
  rw [writeJson_text, ← hvalue, ← hok]
  exact parse_iff blank_line hread

inductive Call where
  | setEnabled (v : Bool)
  | addComplete (e : TraceEvent)
  | setProcessName (pid : Int32) (name : Text)
  | setThreadName (pid tid : Int32) (name : Text)

namespace Call

def event : Call → Option TraceEvent
  | .addComplete e => some e
  | _ => none

def metaEvent : Call → Option MetaEvent
  | .setProcessName pid name => some ⟨pid,0,.processName,name⟩
  | .setThreadName pid tid name => some ⟨pid,tid,.threadName,name⟩
  | _ => none

def strings : Call → List Text
  | .setEnabled _ => []
  | .addComplete e => [e.name,e.cat,e.args]
  | .setProcessName _ name => [name]
  | .setThreadName _ _ name => [name]

end Call

def exec (tw : TraceWriter) : Call → TraceWriter
  | .setEnabled v => tw.setEnabled v
  | .addComplete e => tw.addComplete e
  | .setProcessName pid name => tw.setProcessName pid name
  | .setThreadName pid tid name => tw.setThreadName pid tid name

/-- The calls made while the writer is enabled. -/
def recorded : Bool → List Call → List Call
  | _, [] => []
  | _, .setEnabled v::calls => recorded v calls
  | on, call::calls => (if on then [call] else [])++recorded on calls

theorem exec_run (tw : TraceWriter) (calls : List Call) :
    (calls.foldl exec tw).metas =
        tw.metas++(recorded tw.enabled calls).filterMap Call.metaEvent ∧
      (calls.foldl exec tw).events =
        tw.events++(recorded tw.enabled calls).filterMap Call.event := by
  induction calls generalizing tw with
  | nil => simp [recorded]
  | cons call calls ih =>
    obtain ⟨hmetas,hevents⟩ := ih (exec tw call)
    rw [List.foldl_cons, hmetas, hevents]
    cases call with
    | setEnabled v => exact ⟨rfl,rfl⟩
    | addComplete e =>
      cases h : tw.enabled <;>
        simp [exec, TraceWriter.addComplete, recorded, Call.metaEvent, Call.event, List.filterMap_cons, h]
    | setProcessName pid name =>
      cases h : tw.enabled <;>
        simp [exec, TraceWriter.setProcessName, recorded, Call.metaEvent, Call.event, List.filterMap_cons, h]
    | setThreadName pid tid name =>
      cases h : tw.enabled <;>
        simp [exec, TraceWriter.setThreadName, recorded, Call.metaEvent, Call.event, List.filterMap_cons, h]

theorem escapable_strings (call : Call) :
    (∀ s ∈ call.strings, Escapable s) ↔
      (∀ m, call.metaEvent = some m → Escapable m.value) ∧
        ∀ e, call.event = some e → Escapable e.name ∧ Escapable e.cat ∧ Escapable e.args := by
  cases call <;> simp [Call.strings, Call.metaEvent, Call.event]

/-- What was recorded while the writer was enabled is read back in its order,
the names first. -/
theorem recorded_iff (calls : List Call) :
    parse (calls.foldl exec {}).writeJson =
        some { metas := (recorded false calls).filterMap Call.metaEvent
               events := (recorded false calls).filterMap Call.event : TraceWriter }.json ↔
      ∀ call ∈ recorded false calls, ∀ s ∈ call.strings, Escapable s := by
  obtain ⟨hmetas,hevents⟩ := exec_run {} calls
  simp only [List.nil_append] at hmetas hevents
  have hjson : (calls.foldl exec {}).json =
      { metas := (recorded false calls).filterMap Call.metaEvent
        events := (recorded false calls).filterMap Call.event : TraceWriter }.json := by
    rw [TraceWriter.json, hmetas, hevents]
    rfl
  rw [← hjson, writeJson_iff, hmetas, hevents]
  constructor
  · intro ⟨hm,he⟩ call hcall
    rw [escapable_strings]
    exact ⟨fun m h => hm m (List.mem_filterMap.mpr ⟨call,hcall,h⟩),
      fun e h => he e (List.mem_filterMap.mpr ⟨call,hcall,h⟩)⟩
  · intro h
    constructor
    · intro m hm
      obtain ⟨call,hcall,hmeta⟩ := List.mem_filterMap.mp hm
      exact ((escapable_strings call).mp (h call hcall)).1 m hmeta
    · intro e he
      obtain ⟨call,hcall,hevent⟩ := List.mem_filterMap.mp he
      exact ((escapable_strings call).mp (h call hcall)).2 e hevent

open Linqu.ProfileReports

end Linqu.TraceFiles
