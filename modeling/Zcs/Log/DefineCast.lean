import Zcs.Config.ConfigVar
import Zcs.Config.Nested
import Zcs.Log.Define

/-! # The codec of the 'logs' variable

The two specialisations of `LexicalCast` for a logger of the configuration. The
encoder writes the level and the formatter of an appender nowhere, and the decoder
reads neither into its field, so that exactly the defines without them come back.
-/
namespace Zcs.Log
open Config

inductive Key where
  | name | level | formatter | appenders | type | file
  deriving DecidableEq

def Key.text : Key → Text
  | name => "name".toList
  | level => "level".toList
  | formatter => "formatter".toList
  | appenders => "appenders".toList
  | type => "type".toList
  | file => "file".toList

@[simp] theorem Key.text_inj {k l : Key} : k.text = l.text ↔ k = l := by
  cases k <;> cases l <;> decide

namespace LogDefine
variable (y : YamlCpp)

def fileType : Text := "FileLogAppender".toList
def stdoutType : Text := "StdoutLogAppender".toList

/-- The members of the logger that are written, if set, before any appender and
again with every appender. -/
def putLevelAndFormatter (v : LogDefine) (node : Fields) : Fields :=
  let node := if v.level ≠ .unkonw then node.put Key.level.text (.scalar v.level.toText) else node
  if !v.formatter.isEmpty then node.put Key.formatter.text (.scalar v.formatter) else node

def appenderFields (i : LogAppenderDefine) : Fields :=
  let node_ap : Fields := []
  if i.type = 1 then
    (node_ap.put Key.type.text (.scalar fileType)).put Key.file.text (.scalar i.file)
  else if i.type = 2 then node_ap.put Key.type.text (.scalar stdoutType)
  else node_ap

def putAppender (v : LogDefine) (node : Fields) (i : LogAppenderDefine) : Fields :=
  (v.putLevelAndFormatter node).pushBack Key.appenders.text (appenderFields i).node

/-- The node that `LexicalCast<LogDefine, std::string>` builds. -/
def toNode (v : LogDefine) : Node :=
  let node : Fields := []
  let node := node.put Key.name.text (.scalar v.name)
  Fields.node (v.appenders.foldl v.putAppender (v.putLevelAndFormatter node))

/-- `node[key].IsDefined() ? node[key].as<std::string>() : ...` -/
def field (key : Key) (node : Node) : Except Text (Option Text) := do
  match ← y.get key.text node with
  | none => return none
  | some value => return some (← y.asString value)

/-- One entry under 'appenders'; `none` for an entry that is passed over. -/
def appenderOf (a : Node) : Except Text (Option LogAppenderDefine) := do
  match ← field y .type a with
  | none => return none
  | some type =>
    if type = fileType then
      match ← field y .file a with
      | none => return none
      | some file =>
        let lad : LogAppenderDefine := { type := 1, file := file }
        match ← field y .formatter a with
        | none => return some lad
        | some formatter => return some { lad with file := formatter }
    else if type = stdoutType then
      let lad : LogAppenderDefine := { type := 2 }
      match ← field y .formatter a with
      | none => return some lad
      | some formatter => return some { lad with file := formatter }
    else return none

/-- `if(node["appenders"].IsDefined())` and the decoder's loop over the entries. -/
def appendersOf (node : Node) : Except Text (List LogAppenderDefine) := do
  match ← y.get Key.appenders.text node with
  | none => return []
  | some aps =>
    (y.itemNodes aps).foldlM (fun appenders a => do
      return appenders ++ (← appenderOf y a).toList) []

/-- What `LexicalCast<std::string, LogDefine>` makes of the loaded text. -/
def ofNode (node : Node) : Except Text LogDefine := do
  match ← y.get Key.name.text node with
  | none => throw "log config name is null".toList
  | some n =>
    let name ← y.asString n
    let level := LogLevel.fromText ((← field y .level node).getD [])
    let formatter := (← field y .formatter node).getD []
    let appenders ← appendersOf y node
    return ⟨name,level,formatter,appenders⟩

def cast : LexicalCast LogDefine where
  fromStr v := do ofNode y (← y.load v)
  toStr v := .ok (y.emit v.toNode)

def stripped (v : LogDefine) : LogDefine :=
  { v with appenders := v.appenders.map fun a => { a with level := .unkonw, formatter := [] } }

/-- The appenders that the format covers: a file, or the standard output
without one. -/
def Writable (a : LogAppenderDefine) : Prop := a.type = 1 ∨ (a.type = 2 ∧ a.file = [])

structure Written (v : LogDefine) (aps : List Node) (node : Fields) : Prop where
  name : node.lookup Key.name.text = some (.scalar v.name)
  level : node.lookup Key.level.text = if v.level ≠ .unkonw then some (.scalar v.level.toText) else none
  formatter : node.lookup Key.formatter.text = if v.formatter ≠ [] then some (.scalar v.formatter) else none
  appenders : node.lookup Key.appenders.text = if aps = [] then none else some (.sequence aps)

theorem lookup_putLevelAndFormatter (v : LogDefine) (key : Key) (node : Fields) :
    (v.putLevelAndFormatter node).lookup key.text =
      if key = .formatter ∧ v.formatter ≠ [] then some (.scalar v.formatter)
      else if key = .level ∧ v.level ≠ .unkonw then some (.scalar v.level.toText)
      else node.lookup key.text := by
  unfold putLevelAndFormatter
  by_cases hl : v.level = .unkonw <;> by_cases hf : v.formatter = [] <;> simp [hl,hf]

theorem written_start (v : LogDefine) :
    Written v [] (v.putLevelAndFormatter (Fields.put [] Key.name.text (.scalar v.name))) := by
  constructor <;> simp [lookup_putLevelAndFormatter]

theorem Written.putAppender {v : LogDefine} {aps : List Node} {node : Fields} (h : Written v aps node)
    (i : LogAppenderDefine) :
    Written v (aps ++ [(appenderFields i).node]) (v.putAppender node i) := by
  have hother : ∀ key : Key, key ≠ .appenders →
      (v.putAppender node i).lookup key.text = (v.putLevelAndFormatter node).lookup key.text :=
    fun key hk => Fields.lookup_pushBack_of_ne (by simpa using hk) _ _
  constructor
  · rw [hother _ (by decide),lookup_putLevelAndFormatter]
    simpa using h.name
  · rw [hother _ (by decide),lookup_putLevelAndFormatter,h.level]
    by_cases hl : v.level = .unkonw <;> simp [hl]
  · rw [hother _ (by decide),lookup_putLevelAndFormatter,h.formatter]
    by_cases hf : v.formatter = [] <;> simp [hf]
  · unfold LogDefine.putAppender
    rw [Fields.lookup_pushBack,lookup_putLevelAndFormatter]
    by_cases ha : aps = [] <;> simp [h.appenders,ha]

theorem written_toNode (v : LogDefine) : ∃ node : Fields, v.toNode = .map node ∧
    Written v (v.appenders.map fun i => (appenderFields i).node) node := by
  have hrun : ∀ (is : List LogAppenderDefine) {aps : List Node} {node : Fields}, Written v aps node →
      Written v (aps ++ is.map fun i => (appenderFields i).node) (is.foldl v.putAppender node) := by
    intro is
    induction is with
    | nil => simp
    | cons i is ih =>
      intro aps node h
      simpa using ih (h.putAppender i)
  have h := hrun v.appenders (written_start v)
  exact ⟨_,Fields.node_of_lookup h.name,h⟩

variable {y}

theorem field_map (hy : ∀ s, y.asString (.scalar s) = .ok s) {key : Key} {node : Fields} {s : Option Text}
    (h : node.lookup key.text = s.map .scalar) : field y key (.map node) = .ok s := by
  unfold field
  rw [YamlCpp.get,h]
  cases s with
  | none => rfl
  | some s => simp [hy,bind,Except.bind,pure,Except.pure]

theorem appenderOf_node (hy : ∀ s, y.asString (.scalar s) = .ok s) {a : LogAppenderDefine}
    (ha : Writable a) :
    appenderOf y (appenderFields a).node = .ok (some { a with level := .unkonw, formatter := [] }) := by
  obtain ⟨type,level,formatter,file⟩ := a
  rcases ha with ht | ⟨ht,hf⟩
  · obtain rfl : type = 1 := ht
    let node : Fields := Fields.put (Fields.put [] Key.type.text (.scalar fileType)) Key.file.text (.scalar file)
    have htype : field y .type (.map node) = .ok (some fileType) := field_map hy (by simp [node])
    have hfile : field y .file (.map node) = .ok (some file) := field_map hy (by simp [node])
    have hformatter : field y .formatter (.map node) = .ok none := field_map hy (by simp [node])
    change appenderOf y (.map node) = _
    simp only [appenderOf,htype,hfile,hformatter,bind,Except.bind,↓reduceIte]
    rfl
  · obtain rfl : type = 2 := ht
    obtain rfl : file = [] := hf
    let node : Fields := Fields.put [] Key.type.text (.scalar stdoutType)
    have htype : field y .type (.map node) = .ok (some stdoutType) := field_map hy (by simp [node])
    have hformatter : field y .formatter (.map node) = .ok none := field_map hy (by simp [node])
    have hne : stdoutType ≠ fileType := by decide
    change appenderOf y (.map node) = _
    simp only [appenderOf,htype,hformatter,bind,Except.bind,hne,↓reduceIte]
    rfl

theorem appendersOf_map (hy : ∀ s, y.asString (.scalar s) = .ok s) {v : LogDefine} {node : Fields}
    (hv : ∀ a ∈ v.appenders, Writable a)
    (hw : Written v (v.appenders.map fun i => (appenderFields i).node) node) :
    appendersOf y (.map node) = .ok v.stripped.appenders := by
  unfold appendersOf
  rw [YamlCpp.get,hw.appenders]
  by_cases hnil : v.appenders = []
  · simp [hnil,stripped,bind,Except.bind,pure,Except.pure]
  · have hloop : (v.appenders.map fun i => (appenderFields i).node).foldlM (fun appenders a => do
          return appenders ++ (← appenderOf y a).toList) [] =
        Except.ok (v.stripped.appenders.foldl (fun appenders a => appenders ++ [a]) []) := by
      refine foldlM_eq_ok ?_ []
      rw [stripped,List.forall₂_map_left_iff,List.forall₂_map_right_iff,List.forall₂_same]
      intro a ha appenders
      rw [appenderOf_node hy (hv a ha)]
      rfl
    rw [foldl_push,List.nil_append] at hloop
    rw [if_neg (by simpa using hnil)]
    simp only [bind,Except.bind,YamlCpp.itemNodes_sequence]
    exact hloop

theorem ofNode_eq {node n : Node} {name : Text} {level formatter : Option Text}
    {appenders : List LogAppenderDefine} (hn : y.get Key.name.text node = .ok (some n))
    (hname : y.asString n = .ok name) (hlevel : field y .level node = .ok level)
    (hformatter : field y .formatter node = .ok formatter) (ha : appendersOf y node = .ok appenders) :
    ofNode y node = .ok ⟨name,LogLevel.fromText (level.getD []),formatter.getD [],appenders⟩ := by
  simp only [ofNode,hn,hname,hlevel,hformatter,ha,bind,Except.bind]
  rfl

theorem ofNode_toNode (hy : ∀ s, y.asString (.scalar s) = .ok s) {v : LogDefine}
    (hv : ∀ a ∈ v.appenders, Writable a) : ofNode y v.toNode = .ok v.stripped := by
  obtain ⟨node,hnode,hw⟩ := written_toNode v
  have hname : y.get Key.name.text (.map node) = .ok (some (.scalar v.name)) := by
    rw [YamlCpp.get,hw.name]
  have hlevel : field y .level (.map node) = .ok (if v.level ≠ .unkonw then some v.level.toText else none) :=
    field_map hy (by rw [hw.level]; split <;> rfl)
  have hformatter : field y .formatter (.map node) =
      .ok (if v.formatter ≠ [] then some v.formatter else none) :=
    field_map hy (by rw [hw.formatter]; split <;> rfl)
  have hf : (if v.formatter ≠ [] then some v.formatter else none).getD [] = v.formatter := by
    by_cases h : v.formatter = [] <;> simp [h]
  rw [hnode,ofNode_eq hname (hy _) hlevel hformatter (appendersOf_map hy hv hw),LogLevel.fromText_written,hf]
  rfl

theorem stripped_eq_iff {v : LogDefine} :
    v.stripped = v ↔ ∀ a ∈ v.appenders, a.level = .unkonw ∧ a.formatter = [] := by
  constructor
  · intro h a ha
    have hm : v.appenders.map (fun a => { a with level := LogLevel.unkonw, formatter := [] }) = v.appenders :=
      congrArg LogDefine.appenders h
    have he := map_eq_self_iff.mp hm a ha
    rw [← he]
    exact ⟨rfl,rfl⟩
  · intro h
    have hm : v.appenders.map (fun a => { a with level := LogLevel.unkonw, formatter := [] }) = v.appenders := by
      refine map_eq_self_iff.mpr fun a ha => ?_
      obtain ⟨type,level,formatter,file⟩ := a
      obtain ⟨hl,hf⟩ := h _ ha
      simp only at hl hf
      rw [hl,hf]
    rw [stripped,hm]

end LogDefine

namespace LogDefines
variable {y : YamlCpp}

def cast (y : YamlCpp) : LexicalCast LogDefines := (LogDefine.cast y).set y LogDefine.lt

def toNode (v : LogDefines) : Node := .sequence (v.toList.map LogDefine.toNode)

theorem toStr_eq {v : LogDefines} (hl : ∀ d ∈ v, y.Loads d.toNode) : (cast y).toStr v = .ok (y.emit v.toNode) := by
  have hm : v.toList.mapM ((LogDefine.cast y).loaded y) = .ok (v.toList.map LogDefine.toNode) := by
    refine mapM_eq_ok ?_
    rw [List.forall₂_map_right_iff,List.forall₂_same]
    exact fun d hd => hl d hd
  change (do return y.emit (← (LogDefine.cast y).sequenceNode y v.toList)) = _
  rw [LexicalCast.sequenceNode,hm]
  rfl

/-- A sequence whose items decode to defines in order of their names decodes to their set. -/
theorem fromStr_sequence {nodes : List Node} {ds : List LogDefine}
    (h : List.Forall₂ (fun node d => y.Loads node ∧ LogDefine.ofNode y node = .ok d) nodes ds)
    (hs : ds.Pairwise fun a b => LogDefine.lt a b = true) (hl : y.Loads (.sequence nodes)) :
    ∃ u : LogDefines, (cast y).fromStr (y.emit (.sequence nodes)) = .ok u ∧ u.toList = ds := by
  refine ⟨ds.foldl SortedSet.insert .empty,?_,SortedSet.toList_insertAll hs⟩
  change LexicalCast.readItems y (LogDefine.cast y) SortedSet.insert .empty (y.emit (.sequence nodes)) = _
  rw [LexicalCast.readItems,hl]
  refine foldlM_eq_ok ?_ _
  rw [YamlCpp.itemTexts_sequence,List.forall₂_map_left_iff]
  refine h.imp fun node d hd s => ?_
  have hfrom : (LogDefine.cast y).fromStr (y.emit node) = .ok d := by
    change (do LogDefine.ofNode y (← y.load (y.emit node))) = _
    rw [hd.1]
    exact hd.2
  rw [LexicalCast.addItem,hfrom]
  rfl

theorem fromStr_eq (hy : ∀ s, y.asString (.scalar s) = .ok s) {v : LogDefines}
    (hv : ∀ d ∈ v, ∀ a ∈ d.appenders, LogDefine.Writable a) (hl : ∀ d ∈ v, y.Loads d.toNode)
    (hls : y.Loads v.toNode) :
    ∃ u : LogDefines, (cast y).fromStr (y.emit v.toNode) = .ok u ∧
      u.toList = v.toList.map LogDefine.stripped := by
  refine fromStr_sequence ?_ (List.pairwise_map.mpr v.sorted) hls
  rw [List.forall₂_map_left_iff,List.forall₂_map_right_iff,List.forall₂_same]
  exact fun d hd => ⟨hl d hd,LogDefine.ofNode_toNode hy (hv d hd)⟩

/-- The value that `FromString` leaves when it returns true on the text of `ToString`. -/
def RoundTrips {W : Type*} (y : YamlCpp) (var : ConfigVar LogDefines W) (w : W) : Prop :=
  ∃ var' w', var.fromString (cast y) (var.toString (cast y)) w = some (true,var',w') ∧ var'.val = var.val

/-- What the decoder makes of a set is the set itself if it has nothing to take away. -/
theorem eq_iff_plain {u v : LogDefines} (h : u.toList = v.toList.map LogDefine.stripped) :
    u = v ↔ ∀ d ∈ v, ∀ a ∈ d.appenders, a.level = .unkonw ∧ a.formatter = [] := by
  constructor
  · intro he d hd
    have hm : v.toList.map LogDefine.stripped = v.toList := by rw [← h,he]
    exact LogDefine.stripped_eq_iff.mp (map_eq_self_iff.mp hm d hd)
  · intro hp
    refine SortedSet.ext_toList (h.trans (map_eq_self_iff.mpr fun d hd => ?_))
    exact LogDefine.stripped_eq_iff.mpr (hp d hd)

theorem eq_of_roundTrips {W : Type*} {var : ConfigVar LogDefines W} {w : W} {u : LogDefines}
    (hu : (cast y).fromStr (var.toString (cast y)) = .ok u) (h : RoundTrips y var w) : u = var.val := by
  obtain ⟨var',w',hf,hval⟩ := h
  simp only [ConfigVar.fromString,hu] at hf
  cases hs : var.setValue u w with
  | returned p =>
    simp only [hs,Option.some.injEq,Prod.mk.injEq,true_and] at hf
    obtain ⟨rfl,rfl⟩ := hf
    rcases ConfigVar.setValue_returned hs with h | ⟨h,_,_⟩
    · rw [h] at hval
      exact hval
    · exact (beq_iff_eq.mp h).symm
  | threw p _ => simp [hs] at hf
  | crashed => simp [hs] at hf

/-- The text of a variable, and what is read from it. -/
theorem exists_read {W : Type*} (hy : ∀ s, y.asString (.scalar s) = .ok s) {var : ConfigVar LogDefines W}
    (hv : ∀ d ∈ var.val, ∀ a ∈ d.appenders, LogDefine.Writable a) (hl : ∀ d ∈ var.val, y.Loads d.toNode)
    (hls : y.Loads var.val.toNode) : ∃ u : LogDefines,
      (cast y).fromStr (var.toString (cast y)) = .ok u ∧ u.toList = var.val.toList.map LogDefine.stripped := by
  have hto : var.toString (cast y) = y.emit var.val.toNode := by rw [ConfigVar.toString,toStr_eq hl]
  rw [hto]
  exact fromStr_eq hy hv hl hls

/-- The variable survives the way to text and back exactly if no appender has a
level or a formatter; the variable and the world are then as they were. -/
theorem roundTrips_iff {W : Type*} (hy : ∀ s, y.asString (.scalar s) = .ok s)
    (var : ConfigVar LogDefines W) (w : W) (hv : ∀ d ∈ var.val, ∀ a ∈ d.appenders, LogDefine.Writable a)
    (hl : ∀ d ∈ var.val, y.Loads d.toNode) (hls : y.Loads var.val.toNode) :
    (RoundTrips y var w ↔
      ∀ d ∈ var.val, ∀ a ∈ d.appenders, a.level = .unkonw ∧ a.formatter = []) ∧
    (RoundTrips y var w →
      var.fromString (cast y) (var.toString (cast y)) w = some (true,var,w)) := by
  obtain ⟨u,hu,hul⟩ := exists_read hy hv hl hls
  have hsame : u = var.val → var.fromString (cast y) (var.toString (cast y)) w = some (true,var,w) := by
    intro h
    rw [ConfigVar.fromString,hu,h]
    simp only [ConfigVar.setValue_of_beq (beq_self_eq_true var.val)]
  have hback : RoundTrips y var w → u = var.val := eq_of_roundTrips hu
  exact ⟨⟨fun h => (eq_iff_plain hul).mp (hback h),fun h => ⟨var,w,hsame ((eq_iff_plain hul).mpr h),rfl⟩⟩,
    fun h => hsame (hback h)⟩

def systemDefine (level : LogLevel) : LogDefine where
  name := "system".toList
  level := .info
  appenders := [{ type := 1, level := level, file := "system.txt".toList }]

def systemText : Text :=
  "name: system\nlevel: INFO\nappenders:\n  - type: FileLogAppender\n    file: system.txt".toList

def systemSetText : Text :=
  "- name: system\n  level: INFO\n  appenders:\n    - type: FileLogAppender\n      file: system.txt".toList

def systemYaml : YamlCpp where
  load s :=
    if s = systemText then .ok (systemDefine .unkonw).toNode
    else if s = systemSetText then .ok (.sequence [(systemDefine .unkonw).toNode])
    else .ok (.scalar s)
  emit
    | .null => ['~']
    | .scalar s => s
    | .sequence _ => systemSetText
    | .map _ => systemText
  asString
    | .scalar s => .ok s
    | _ => .error "bad conversion".toList
  readsAs s i := s == (toString i).toList
  badSubscript key := "operator[] call on a scalar (key: \"".toList ++ key ++ "\")".toList
  invalidNode := "invalid node".toList

def systemVar (level : LogLevel) : ConfigVar LogDefines Unit :=
  ⟨"logs".toList,"log config".toList,SortedSet.empty.insert (systemDefine level),.empty⟩

theorem load_systemText : systemYaml.load systemText = .ok (systemDefine .unkonw).toNode := by
  simp only [systemYaml,↓reduceIte]

theorem load_systemSetText : systemYaml.load systemSetText = .ok (.sequence [(systemDefine .unkonw).toNode]) := by
  have hne : systemSetText ≠ systemText := by
    intro h
    have hs := String.toList_inj.mp h
    simp at hs
  simp only [systemYaml,if_neg hne,↓reduceIte]

theorem loads_system (level : LogLevel) :
    systemYaml.Loads (systemDefine level).toNode ∧ systemYaml.Loads (systemVar level).val.toNode :=
  ⟨load_systemText,load_systemSetText⟩

theorem roundTrips_system : RoundTrips systemYaml (systemVar .unkonw) () := by
  refine (roundTrips_iff (fun _ => rfl) (systemVar .unkonw) () ?_ ?_ (loads_system _).2).1.mpr ?_
  · intro d hd a ha
    obtain rfl := List.mem_singleton.mp hd
    obtain rfl := List.mem_singleton.mp ha
    exact .inl rfl
  · intro d hd
    obtain rfl := List.mem_singleton.mp hd
    exact (loads_system _).1
  · intro d hd a ha
    obtain rfl := List.mem_singleton.mp hd
    obtain rfl := List.mem_singleton.mp ha
    exact ⟨rfl,rfl⟩

/-- A file with level ERROR comes back without it. -/
theorem leveled_not_roundTrips : ¬ ∀ (y : YamlCpp) (var : ConfigVar LogDefines Unit) (w : Unit),
    (∀ s, y.asString (.scalar s) = .ok s) →
      (∀ d ∈ var.val, ∀ a ∈ d.appenders, LogDefine.Writable a) → (∀ d ∈ var.val, y.Loads d.toNode) →
        y.Loads var.val.toNode → RoundTrips y var w := by
  intro h
  have hv : ∀ d ∈ (systemVar .error).val, ∀ a ∈ d.appenders, LogDefine.Writable a := by
    intro d hd a ha
    obtain rfl := List.mem_singleton.mp hd
    obtain rfl := List.mem_singleton.mp ha
    exact .inl rfl
  have hl : ∀ d ∈ (systemVar .error).val, systemYaml.Loads d.toNode := by
    intro d hd
    obtain rfl := List.mem_singleton.mp hd
    exact (loads_system _).1
  have hls := (loads_system .error).2
  obtain ⟨u,hu,hul⟩ := exists_read (fun _ => rfl) hv hl hls
  have hsame := eq_of_roundTrips hu (h systemYaml (systemVar .error) () (fun _ => rfl) hv hl hls)
  have hlevel := ((eq_iff_plain hul).mp hsame _ (List.mem_singleton.mpr rfl) _ (List.mem_singleton.mpr rfl)).1
  cases hlevel

end LogDefines
end Zcs.Log
