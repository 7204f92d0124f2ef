import Mathlib.Logic.Function.Basic
import Zcs.Config.ConfigVar
import Zcs.Foundation.Run

/-! # Listeners that throw

`FromString` calls the listeners one after the other before it assigns, and catches
what one of them throws. The listeners before it have been told a value that the
variable never takes.
-/
namespace Zcs.Config.ListenerThrows

/-- A listener acts on the rest of the world and may then throw. -/
abbrev Reaction (T W : Type) := T → T → W → W × Option Text

/-- The last new value that each listener was called with. -/
abbrev Views (T : Type) := ℕ → Option T

variable {T W : Type}

def told (id : ℕ) (cb : Reaction T W) : Listener T (W × Views T) := fun newVal oldVal w =>
  let r := cb newVal oldVal w.1
  let w := (r.1,Function.update w.2 id (some newVal))
  match r.2 with
  | none => .returned w
  | some what => .threw w what

structure State (T W : Type) where
  var : ConfigVar T (W × Views T)
  world : W × Views T

def State.views (s : State T W) : Views T := s.world.2

variable (cbs : SortedMap ℕ (Reaction T W))

def start (name description : Text) (val : T) (world : W) : State T W :=
  ⟨⟨name,description,val,cbs.mapValues told⟩,world,fun _ => none⟩

variable [BEq T] (cast : LexicalCast T)

/-- `FromString` with its return value. -/
def call (s : State T W) (val : Text) : Option (Bool × State T W) :=
  (s.var.fromString cast val s.world).map fun r => (r.1,⟨r.2.1,r.2.2⟩)

def step (s : State T W) (val : Text) : Option (State T W) := (call cast s val).map Prod.snd

/-- The listeners, called in turn, all return. -/
def NoneThrows (v old : T) : List (ℕ × Reaction T W) → W → Prop
  | [], _ => True
  | (_,cb) :: rest, w => (cb v old w).2 = none ∧ NoneThrows v old rest (cb v old w).1

/-- No listener throws on the value that the text decodes to. -/
def Calm (s : State T W) (val : Text) : Prop :=
  ∀ v, cast.fromStr val = .ok v → (s.var.val == v) = false →
    NoneThrows v s.var.val cbs.entries s.world.1

/-- The call assigns, or it leaves everything as it was. -/
def Atomic (s : State T W) (val : Text) (b : Bool) (t : State T W) : Prop :=
  (b = true → ∃ v, cast.fromStr val = .ok v ∧ (t.var.val = v ∨ (t.var.val == v) = true)) ∧
  (b = false → t.var = s.var ∧ t.views = s.views)

def Agree (s : State T W) : Prop :=
  ∀ e ∈ cbs.entries, ∀ v, s.views e.1 = some v → v = s.var.val

omit [BEq T] in
theorem runCallbacks_told {v old : T} {es : List (ℕ × Reaction T W)} {w : W}
    (h : NoneThrows v old es w) (views : Views T) :
    ∃ w' views', ConfigVar.runCallbacks v old (es.map fun e => (e.1,told e.1 e.2)) (w,views) =
        .returned (w',views') ∧
      ∀ i, views' i = if i ∈ es.map Prod.fst then some v else views i := by
  induction es generalizing w views with
  | nil => exact ⟨w,views,rfl,fun _ => rfl⟩
  | cons e es ih =>
    obtain ⟨hnone,hrest⟩ := h
    obtain ⟨w',views',hrun,hviews⟩ := ih hrest (Function.update views e.1 (some v))
    refine ⟨w',views',?_,fun i => ?_⟩
    · simp only [List.map_cons,ConfigVar.runCallbacks,told,hnone]
      exact hrun
    · rw [hviews]
      by_cases hi : i = e.1
      · simp [hi]
      · simp only [List.map_cons,List.mem_cons,hi,false_or,Function.update_of_ne hi]

theorem call_spec {s : State T W} (hcbs : s.var.cbs = cbs.mapValues told) (hs : Agree cbs s) {val : Text}
    (hc : Calm cbs cast s val) :
    ∃ b t, call cast s val = some (b,t) ∧ Atomic cast s val b t ∧ Agree cbs t ∧
      t.var.cbs = cbs.mapValues told := by
  cases hv : cast.fromStr val with
  | error e =>
    exact ⟨false,s,by simp [call,ConfigVar.fromString,hv],⟨by simp,fun _ => ⟨rfl,rfl⟩⟩,hs,hcbs⟩
  | ok v =>
    cases hb : s.var.val == v with
    | true =>
      refine ⟨true,s,?_,⟨fun _ => ⟨v,hv,.inr hb⟩,by simp⟩,hs,hcbs⟩
      simp [call,ConfigVar.fromString,ConfigVar.setValue,hv,hb]
    | false =>
      obtain ⟨w,views,hrun,hviews⟩ := runCallbacks_told (hc v hv hb) s.views
      have hentries : s.var.cbs.entries = cbs.entries.map fun e => (e.1,told e.1 e.2) := by
        rw [hcbs]
        rfl
      refine ⟨true,⟨{ s.var with val := v },w,views⟩,?_,⟨fun _ => ⟨v,hv,.inl rfl⟩,by simp⟩,?_,hcbs⟩
      · have hrun : ConfigVar.runCallbacks v s.var.val s.var.cbs.entries s.world = .returned (w,views) := by
          rw [hentries]
          exact hrun
        simp [call,ConfigVar.fromString,ConfigVar.setValue,hv,hb,hrun]
      · intro e he u hu
        change views e.1 = some u at hu
        rw [hviews,if_pos (List.mem_map_of_mem he)] at hu
        exact (Option.some.inj hu).symm

theorem agree_run {s t : State T W} {vals : List Text} (h : Runs (step cast) (Calm cbs cast) s vals t)
    (hcbs : s.var.cbs = cbs.mapValues told) (hs : Agree cbs s) :
    t.var.cbs = cbs.mapValues told ∧ Agree cbs t := by
  refine h.invariant (P := fun s => s.var.cbs = cbs.mapValues told ∧ Agree cbs s) ?_ ⟨hcbs,hs⟩
  rintro s t val ⟨hcbs,hs⟩ hc hstep
  obtain ⟨b,u,hu,_,hagree,hcbs'⟩ := call_spec cbs cast hcbs hs hc
  obtain rfl : u = t := by simpa [step,hu] using hstep
  exact ⟨hcbs',hagree⟩

/-- After any calls in which no listener throws all views agree with the value, and
one more such call assigns or leaves everything as it was. -/
theorem atomic_of_calm (name description : Text) (val : T) (world : W) {vals : List Text} {s : State T W}
    (h : Runs (step cast) (Calm cbs cast) (start cbs name description val world) vals s) :
    Agree cbs s ∧ ∀ text, Calm cbs cast s text → ∃ b t, call cast s text = some (b,t) ∧
      Atomic cast s text b t ∧ Agree cbs t := by
  obtain ⟨hcbs,hs⟩ := agree_run cbs cast h rfl fun _ _ _ hv => nomatch hv
  refine ⟨hs,fun text hc => ?_⟩
  obtain ⟨b,t,ht,hatomic,hagree,_⟩ := call_spec cbs cast hcbs hs hc
  exact ⟨b,t,ht,hatomic,hagree⟩

def sees : Reaction Bool Unit := fun _ _ w => (w,none)

def refuses : Reaction Bool Unit := fun newVal _ w => (w,if newVal then some "no".toList else none)

/-- Two listeners, the second of which does not take `true`. -/
def twoListeners : SortedMap ℕ (Reaction Bool Unit) := (SortedMap.empty.assign 1 sees).assign 2 refuses

theorem atomic_false : ∃ b t, call boolCast (start twoListeners [] [] true ()) ['0'] = some (b,t) ∧
    Atomic boolCast (start twoListeners [] [] true ()) ['0'] b t ∧ Agree twoListeners t := by
  refine (atomic_of_calm twoListeners boolCast [] [] true () (.refl _)).2 ['0'] fun v hv _ => ?_
  have hv : (.ok false : Except Text Bool) = .ok v := hv
  obtain rfl := Except.ok.inj hv
  exact ⟨rfl,rfl,trivial⟩

/-- A refused value has already been seen by the listener before. -/
theorem refused_not_atomic : ¬ ∀ (cbs : SortedMap ℕ (Reaction Bool Unit)) (vals : List Text)
    (s : State Bool Unit) (text : Text) (b : Bool) (t : State Bool Unit),
    Runs (step boolCast) (fun _ _ => True) (start cbs [] [] false ()) vals s →
    call boolCast s text = some (b,t) → Atomic boolCast s text b t ∧ Agree cbs t := by
  intro h
  have hagree := (h twoListeners [] _ ['1'] _ _ (.refl _) rfl).2
  have hval : true = false := hagree (1,sees) List.mem_cons_self true rfl
  cases hval

end Zcs.Config.ListenerThrows
