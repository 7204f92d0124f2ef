import Zcs.Log.DefineCast

/-! # Decoding the appenders of a logger

What an entry under 'appenders' asks for is stated key by key. The decoder takes a
formatter for the file and never looks at the level, so that it reads exactly the
entries that have neither.
-/
namespace Zcs.Log.LogDefine

variable (y : YamlCpp)

/-- The text under a key, if there is one and it is a text. -/
def read (key : Key) (e : Fields) : Option Text :=
  (e.lookup key.text).bind fun node => (y.asString node).toOption

/-- Whatever is under the key converts to a text. -/
def Readable (key : Key) (e : Fields) : Prop :=
  ∀ node, e.lookup key.text = some node → ∃ s, y.asString node = .ok s

def levelOf (e : Fields) : LogLevel := LogLevel.fromText ((read y .level e).getD [])

def formatterOf (e : Fields) : Text := (read y .formatter e).getD []

/-- What an entry asks for: every key in its own field. -/
def described (e : Fields) : Option LogAppenderDefine :=
  match read y .type e with
  | none => none
  | some type =>
    if type = fileType then (read y .file e).map fun file => ⟨1,levelOf y e,formatterOf y e,file⟩
    else if type = stdoutType then some ⟨2,levelOf y e,formatterOf y e,[]⟩
    else none

def expected (entries : Fields) (items : List Fields) : LogDefine :=
  ⟨(read y .name entries).getD [],levelOf y entries,formatterOf y entries,items.filterMap (described y)⟩

/-- No level and no formatter; an empty formatter is none if the file is empty as well. -/
structure Plain (file : Text) (e : Fields) : Prop where
  readable : Readable y .formatter e
  formatter : ∀ f, read y .formatter e = some f → f = [] ∧ file = []
  level : levelOf y e = .unkonw

structure Faithful (e : Fields) : Prop where
  type : Readable y .type e
  file : read y .type e = some fileType →
    Readable y .file e ∧ ∀ file, read y .file e = some file → Plain y file e
  stdout : read y .type e = some stdoutType → Plain y [] e

variable {y}

theorem field_eq_ok_iff {key : Key} {e : Fields} {o : Option Text} :
    field y key (.map e) = .ok o ↔ Readable y key e ∧ read y key e = o := by
  unfold field Readable read
  rw [YamlCpp.get]
  cases e.lookup key.text with
  | none => simp [bind,Except.bind,pure,Except.pure]
  | some node => cases hs : y.asString node <;> simp [hs,bind,Except.bind,pure,Except.pure,Except.toOption]

/-- Reading a key first is reading it at its text, if it can be read at all. -/
theorem field_bind_eq_ok_iff {β : Type} {key : Key} {e : Fields} {f : Option Text → Except Text β} {b : β} :
    (field y key (.map e) >>= f) = .ok b ↔ Readable y key e ∧ f (read y key e) = .ok b := by
  simp only [bind_eq_ok_iff,field_eq_ok_iff,and_assoc,exists_and_left,exists_eq_left']

/-- The formatter of an entry that is kept goes to the file. -/
theorem formatter_to_file_iff (type : ℤ) (file : Text) (e : Fields) :
    (do match ← field y .formatter (.map e) with
        | none => return some ({ type := type, file := file } : LogAppenderDefine)
        | some formatter => return some { type := type, file := formatter }) =
      Except.ok (some ⟨type,levelOf y e,formatterOf y e,file⟩) ↔ Plain y file e := by
  have hplain : Plain y file e ↔ Readable y .formatter e ∧
      (∀ f, read y .formatter e = some f → f = [] ∧ file = []) ∧ levelOf y e = .unkonw :=
    ⟨fun h => ⟨h.readable,h.formatter,h.level⟩,fun h => ⟨h.1,h.2.1,h.2.2⟩⟩
  rw [field_bind_eq_ok_iff,hplain,formatterOf]
  refine and_congr_right fun _ => ?_
  cases read y .formatter e with
  | none => simp [pure,Except.pure,eq_comm]
  | some f =>
    simp only [pure,Except.pure,Except.ok.injEq,Option.some.injEq,LogAppenderDefine.mk.injEq,
      Option.getD_some,forall_eq']
    constructor
    · rintro ⟨-,hlevel,rfl,rfl⟩
      exact ⟨⟨rfl,rfl⟩,hlevel.symm⟩
    · rintro ⟨⟨rfl,rfl⟩,hlevel⟩
      exact ⟨trivial,hlevel.symm,rfl,rfl⟩

theorem appenderOf_eq_iff (e : Fields) : appenderOf y (.map e) = .ok (described y e) ↔ Faithful y e := by
  have hne : stdoutType ≠ fileType := by decide
  have hfaithful : Faithful y e ↔ Readable y .type e ∧
      (read y .type e = some fileType →
        Readable y .file e ∧ ∀ file, read y .file e = some file → Plain y file e) ∧
      (read y .type e = some stdoutType → Plain y [] e) :=
    ⟨fun h => ⟨h.type,h.file,h.stdout⟩,fun h => ⟨h.1,h.2.1,h.2.2⟩⟩
  rw [hfaithful,described,appenderOf,field_bind_eq_ok_iff]
  refine and_congr_right fun _ => ?_
  cases read y .type e with
  | none => simp [pure,Except.pure]
  | some type =>
    simp only [Option.some.injEq]
    by_cases hfile : type = fileType
    · subst hfile
      simp only [↓reduceIte,hne.symm,false_implies,and_true,true_implies]
      rw [field_bind_eq_ok_iff]
      refine and_congr_right fun _ => ?_
      cases read y .file e with
      | none => simp [pure,Except.pure]
      | some file =>
        simp only [Option.some.injEq,forall_eq']
        exact formatter_to_file_iff 1 file e
    · simp only [hfile,↓reduceIte,false_implies,true_and]
      by_cases hout : type = stdoutType
      · subst hout
        simp only [↓reduceIte,true_implies]
        exact formatter_to_file_iff 2 [] e
      · simp [hout,pure,Except.pure]

theorem isSome_of_kept {e : Fields} {lad : LogAppenderDefine} {o : Option LogAppenderDefine}
    (h : (do match ← field y .formatter (.map e) with
        | none => return some lad
        | some formatter => return some { lad with file := formatter }) = Except.ok o) : o.isSome := by
  have h := (field_bind_eq_ok_iff.mp h).2
  cases hf : read y .formatter e with
  | none =>
    rw [hf] at h
    cases h
    rfl
  | some f =>
    rw [hf] at h
    cases h
    rfl

/-- An entry is kept or passed over as it should be, whatever becomes of its fields. -/
theorem isSome_of_appenderOf {e : Fields} {o : Option LogAppenderDefine} (h : appenderOf y (.map e) = .ok o) :
    o.isSome = (described y e).isSome := by
  have h := (field_bind_eq_ok_iff.mp h).2
  rw [described]
  cases ht : read y .type e with
  | none =>
    rw [ht] at h
    cases h
    rfl
  | some type =>
    simp only [ht] at h ⊢
    split_ifs at h ⊢ with hfile hout
    · have h := (field_bind_eq_ok_iff.mp h).2
      cases hr : read y .file e with
      | none =>
        rw [hr] at h
        cases h
        rfl
      | some file =>
        rw [hr] at h
        exact isSome_of_kept h
    · exact isSome_of_kept h
    · cases h
      rfl

theorem appendersOf_eq_iff {entries : Fields} {items : List Fields}
    (ha : entries.lookup Key.appenders.text = some (.sequence (items.map .map)) ∨
      (entries.lookup Key.appenders.text = none ∧ items = [])) :
    appendersOf y (.map entries) = .ok (items.filterMap (described y)) ↔ ∀ e ∈ items, Faithful y e := by
  unfold appendersOf
  rw [YamlCpp.get]
  rcases ha with ha | ⟨ha,rfl⟩
  · have hloop := foldlM_keep_eq_ok_iff (f := fun e => appenderOf y (.map e))
      (fun e (_ : e ∈ items) _ => isSome_of_appenderOf) []
    rw [ha]
    change (y.itemNodes (.sequence (items.map .map))).foldlM _ [] = _ ↔ _
    rw [YamlCpp.itemNodes_sequence,List.foldlM_map]
    exact hloop.trans (forall₂_congr fun e _ => appenderOf_eq_iff e)
  · simp [ha,bind,Except.bind,pure,Except.pure]

/-- The decoder makes of an entry what it describes exactly if its texts can be read
and no appender that is kept has a level or a formatter. -/
theorem decodes_iff {v : Text} {entries : Fields} {items : List Fields} {name : Node}
    (hv : y.load v = .ok (.map entries)) (hn : entries.lookup Key.name.text = some name)
    (ha : entries.lookup Key.appenders.text = some (.sequence (items.map .map)) ∨
      (entries.lookup Key.appenders.text = none ∧ items = [])) :
    (LogDefine.cast y).fromStr v = .ok (expected y entries items) ↔
      Readable y .name entries ∧ Readable y .level entries ∧ Readable y .formatter entries ∧
        ∀ e ∈ items, Faithful y e := by
  have hname : Readable y .name entries ↔ ∃ s, y.asString name = .ok s := by simp [Readable,hn]
  have hread : read y .name entries = (y.asString name).toOption := by simp [read,hn]
  have hload : (LogDefine.cast y).fromStr v = ofNode y (.map entries) := by
    change (do ofNode y (← y.load v)) = _
    rw [hv]
    rfl
  have hget : y.get Key.name.text (.map entries) = .ok (some name) := by rw [YamlCpp.get,hn]
  rw [hload,ofNode,hget,← appendersOf_eq_iff ha,hname,expected,hread]
  change (y.asString name >>= _) = _ ↔ _
  simp only [bind_eq_ok_iff,field_eq_ok_iff,pure,Except.pure,Except.ok.injEq]
  constructor
  · rintro ⟨s,hs,_,⟨hl,rfl⟩,_,⟨hf,rfl⟩,appenders,happenders,hd⟩
    obtain rfl := (LogDefine.mk.inj hd).2.2.2
    exact ⟨⟨s,hs⟩,hl,hf,happenders⟩
  · rintro ⟨⟨s,hs⟩,hl,hf,happenders⟩
    exact ⟨s,hs,_,⟨hl,rfl⟩,_,⟨hf,rfl⟩,_,happenders,by rw [hs]; rfl⟩

/-- yaml-cpp on one text, which is read as a map. -/
def loading (text : Text) (entries : Fields) : YamlCpp :=
  { LogDefines.systemYaml with
    load := fun s => if s = text then .ok (.map entries) else .error "bad document".toList }

theorem load_loading (text : Text) (entries : Fields) : (loading text entries).load text = .ok (.map entries) :=
  if_pos rfl

def typed (type : Text) : Fields := [(.scalar Key.type.text,.scalar type)]

def documentOf (items : List Fields) : Fields :=
  [(.scalar Key.name.text,.scalar "system".toList),
    (.scalar Key.appenders.text,.sequence (items.map .map))]

def mixedText : Text :=
  ("name: system\nappenders:\n- type: SyslogAppender\n- type: FileLogAppender\n  file: a.log\n" ++
    "- type: FileLogAppender\n- type: StdoutLogAppender\n").toList

def fileItem : Fields := (typed fileType).put Key.file.text (.scalar "a.log".toList)

/-- An entry of another type and a file without a name are passed over. -/
def mixedItems : List Fields := [typed "SyslogAppender".toList,fileItem,typed fileType,typed stdoutType]

def mixedYaml : YamlCpp := loading mixedText (documentOf mixedItems)

theorem decodes_mixed : (LogDefine.cast mixedYaml).fromStr mixedText =
    .ok (expected mixedYaml (documentOf mixedItems) mixedItems) := by
  have habsent : ∀ {key : Key} {e : Fields}, e.lookup key.text = none → Readable mixedYaml key e :=
    fun h node hn => by simp [h] at hn
  have hscalar : ∀ {key : Key} {e : Fields} {s : Text},
      e.lookup key.text = some (.scalar s) → Readable mixedYaml key e := by
    intro key e s h node hn
    obtain rfl := Option.some.inj (h.symm.trans hn)
    exact ⟨s,rfl⟩
  refine (decodes_iff (load_loading _ _) rfl (.inl rfl)).mpr ⟨hscalar rfl,habsent rfl,habsent rfl,?_⟩
  intro e he
  simp only [mixedItems,List.mem_cons,List.not_mem_nil,or_false] at he
  have hplain : ∀ file, Plain mixedYaml file fileItem := fun _ => ⟨habsent rfl,fun f hf => (nomatch hf),rfl⟩
  rcases he with rfl | rfl | rfl | rfl
  · exact ⟨hscalar rfl,fun h => absurd h (by decide),fun h => absurd h (by decide)⟩
  · exact ⟨hscalar rfl,fun _ => ⟨hscalar rfl,fun file _ => hplain file⟩,fun h => absurd h (by decide)⟩
  · exact ⟨hscalar rfl,fun _ => ⟨habsent rfl,fun file hf => nomatch hf⟩,fun h => absurd h (by decide)⟩
  · exact ⟨hscalar rfl,fun h => absurd h (by decide),fun _ => ⟨habsent rfl,fun f hf => (nomatch hf),rfl⟩⟩

def formattedText : Text :=
  "\x7bname: system, appenders: [\x7btype: StdoutLogAppender, formatter: \"%m\"\x7d]\x7d".toList

def formattedItem : Fields := (typed stdoutType).put Key.formatter.text (.scalar "%m".toList)

/-- The pattern of a standard output ends up as its file. -/
theorem formatted_not_decoded : ¬ ∀ (y : YamlCpp) (v : Text) (entries : Fields) (items : List Fields) (name : Node),
    (∀ s, y.asString (.scalar s) = .ok s) → y.load v = .ok (.map entries) →
      entries.lookup Key.name.text = some name →
        entries.lookup Key.appenders.text = some (.sequence (items.map .map)) →
          (LogDefine.cast y).fromStr v = .ok (expected y entries items) := by
  intro h
  let y := loading formattedText (documentOf [formattedItem])
  have hload := load_loading formattedText (documentOf [formattedItem])
  have hdecode := h y formattedText (documentOf [formattedItem]) [formattedItem] _ (fun _ => rfl) hload rfl rfl
  have hread : (LogDefine.cast y).fromStr formattedText =
      .ok { name := "system".toList, appenders := [{ type := 2, file := "%m".toList }] } := by
    change (do ofNode y (← y.load formattedText)) = _
    rw [hload]
    rfl
  have heq := Except.ok.inj (hread.symm.trans hdecode)
  exact absurd heq (by decide)

end Zcs.Log.LogDefine
