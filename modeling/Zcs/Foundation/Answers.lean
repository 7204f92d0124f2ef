import Zcs.Foundation.Atomic

/-! # What the callers have been told

The calls of a run with their results. A fact about a result that an action establishes
and that no action takes back holds of all of them at the end, in whatever order the
threads went.
-/
namespace Zcs

/-- A result belongs to the last call of its thread. -/
def answers {ι Op Res : Type*} [DecidableEq ι] (last : ι → Option Op) : List (ι × Event Op Res) → List (Op × Res)
  | [] => []
  | (i,.call op) :: es => answers (Function.update last i (some op)) es
  | (i,.ret res) :: es => (last i).toList.map (fun op => (op,res)) ++ answers last es

namespace Object
variable {ι S Op P Res : Type*}

/-- `Q` is what the object promises about a call and its result; `stage` are the actions
that a call may come to. -/
structure Settles (o : Object S Op P Res) (I : S → Prop) (stage : Op → P → Prop) (Q : Op → Res → S → Prop) :
    Prop where
  init : ∀ op, stage op (o.init op)
  keeps : ∀ {s} p, I s → I (o.act p s).1
  lasts : ∀ {s op res} p, I s → Q op res s → Q op res (o.act p s).1
  goesOn : ∀ {s op p q}, I s → stage op p → (o.act p s).2 = .inl q → stage op q
  ends : ∀ {s op p res}, I s → stage op p → (o.act p s).2 = .inr res → Q op res (o.act p s).1

variable [DecidableEq ι] {o : Object S Op P Res} {I : S → Prop} {stage : Op → P → Prop} {Q : Op → Res → S → Prop}

/-- A thread in a call is at one of its actions, or has a result that is as promised. -/
def InCall (stage : Op → P → Prop) (Q : Op → Res → S → Prop) (val : S) (last : Option Op) : Status P Res → Prop
  | .idle => True
  | .pending p => ∀ op, last = some op → stage op p
  | .ready res => ∀ op, last = some op → Q op res val

variable [DecidableEq Res]

theorem Settles.lasts_run (h : o.Settles I stage Q) {s t : State ι S P Res} {as : List (ThreadStep ι Op Res)}
    (hr : Runs o.next (fun _ _ => True) s as t) {op : Op} {res : Res} (hI : I s.val) (hQ : Q op res s.val) :
    I t.val ∧ Q op res t.val := by
  refine hr.invariant (P := fun s => I s.val ∧ Q op res s.val) (fun {s t a} hs _ hn => ?_) ⟨hI,hQ⟩
  cases a with
  | event i e =>
    obtain ⟨st,_,rfl⟩ := Option.map_eq_some_iff.mp hn
    exact hs
  | run i =>
    simp only [next] at hn
    cases hst : s.status i with
    | idle | ready res => simp [hst] at hn
    | pending p =>
      simp only [hst,Option.some.injEq] at hn
      subst hn
      exact ⟨h.keeps p hs.1,h.lasts p hs.1 hs.2⟩

omit [DecidableEq Res] in
theorem inCall_update {val : S} {last : ι → Option Op} {status : ι → Status P Res}
    (hc : ∀ j, InCall stage Q val (last j) (status j)) {i : ι} {st : Status P Res}
    (h : InCall stage Q val (last i) st)
    (j : ι) : InCall stage Q val (last j) (Function.update status i st j) := by
  by_cases hj : j = i
  · subst hj
    simpa using h
  · simpa [hj] using hc j

theorem Settles.answers_run (h : o.Settles I stage Q) {s t : State ι S P Res} {as : List (ThreadStep ι Op Res)}
    (hr : Runs o.next (fun _ _ => True) s as t) {last : ι → Option Op} (hI : I s.val)
    (hc : ∀ j, InCall stage Q s.val (last j) (s.status j)) :
    I t.val ∧ ∀ a ∈ answers last (as.filterMap ThreadStep.observed), Q a.1 a.2 t.val := by
  induction hr generalizing last with
  | refl => exact ⟨hI,fun a ha => by cases ha⟩
  | @step s u t a as _ hn hr ih =>
    cases a with
    | event i e =>
      obtain ⟨st,hst,rfl⟩ := Option.map_eq_some_iff.mp hn
      cases e with
      | call op =>
        refine @ih (Function.update last i (some op)) hI fun j => ?_
        by_cases hj : j = i
        · subst hj
          cases hs : s.status j <;> simp only [hs,Status.move,reduceCtorEq,Option.some.injEq] at hst
          subst hst
          simpa [InCall] using h.init op
        · simpa [hj] using hc j
      | ret res =>
        cases hs : s.status i <;> simp only [hs,Status.move,reduceCtorEq] at hst
        case ready res' =>
          split_ifs at hst with hres
          subst hres
          obtain rfl := Option.some.inj hst
          have hready := hc i
          rw [hs] at hready
          obtain ⟨hIt,hrest⟩ := ih hI (inCall_update hc (i := i) trivial)
          refine ⟨hIt,fun a ha => ?_⟩
          rcases List.mem_append.mp ha with ha | ha
          · obtain ⟨op,hop,rfl⟩ := List.mem_map.mp ha
            exact (h.lasts_run hr hI (hready op (Option.mem_toList.mp hop))).2
          · exact hrest a ha
    | run i =>
      simp only [next] at hn
      cases hs : s.status i with
      | idle | ready res => simp [hs] at hn
      | pending p =>
        simp only [hs,Option.some.injEq] at hn
        subst hn
        have hpending := hc i
        rw [hs] at hpending
        refine ih (h.keeps p hI) fun j => inCall_update (fun k => ?_) ?_ j
        · have hk := hc k
          cases hsk : s.status k with
          | idle => trivial
          | pending q => simpa only [hsk,InCall] using hk
          | ready res =>
            rw [hsk] at hk
            exact fun op hop => h.lasts p hI (hk op hop)
        · cases hact : (o.act p s.val).2 with
          | inl q => exact fun op hop => h.goesOn hI (hpending op hop) hact
          | inr res => exact fun op hop => h.ends hI (hpending op hop) hact

/-- What callers of methods under a lock have been told, if the sections are these actions. -/
theorem Settles.answers_methods {Loc : Type*} {M : Methods S Op P Res Loc} (h : o.Settles I stage Q)
    (hM : M.Implements o) {val : S} (hI : I val) {as : List (ThreadStep ι Op Res)}
    {s : Methods.State ι S P Res Loc} (hr : Runs M.next (fun _ _ => True) (Methods.start val) as s) :
    ∃ val', (s.mutex.writer = none → s.data = val') ∧ I val' ∧
      ∀ a ∈ answers (fun _ => none) (as.filterMap ThreadStep.observed), Q a.1 a.2 val' := by
  obtain ⟨bs,t,hbs,hR,hobs⟩ := Methods.refines hM hr
  obtain ⟨hIt,hQ⟩ := h.answers_run hbs hI fun _ => (trivial : InCall stage Q val none .idle)
  exact ⟨t.val,hR.data,hIt,hobs ▸ hQ⟩

/-- Calls that are made behind a point of the run know what was promised by then. -/
theorem Settles.answers_behind {Loc : Type*} {M : Methods S Op P Res Loc} (h : o.Settles I stage Q)
    (hM : M.Implements o) {I' : S → S → Prop} {Q' : S → Op → Res → S → Prop} (hself : ∀ {val}, I val → I' val val)
    (h' : ∀ val, o.Settles (I' val) stage (Q' val)) {val : S} (hI : I val) {as bs : List (ThreadStep ι Op Res)}
    {s t : Methods.State ι S P Res Loc} (hr : Runs M.next (fun _ _ => True) (Methods.start val) as s)
    (hr' : Runs M.next (fun _ _ => True) s bs t) :
    ∃ val₁ val₂, I val₁ ∧ (∀ a ∈ answers (fun _ => none) (as.filterMap ThreadStep.observed), Q a.1 a.2 val₁) ∧
      ∀ a ∈ answers (fun _ => none) (bs.filterMap ThreadStep.observed), Q' val₁ a.1 a.2 val₂ := by
  obtain ⟨as',u,has,hR,hobs⟩ := Methods.refines hM hr
  obtain ⟨bs',v,hbs,_,hobs'⟩ := hr'.simulate_runs (fun hR _ hn => Methods.matches_step hM hR hn) hR
  obtain ⟨hIu,hQ⟩ := h.answers_run has hI fun _ => (trivial : InCall stage Q val none .idle)
  have hpending (j : ι) : InCall stage (Q' u.val) u.val none (u.status j) := by
    cases u.status j with
    | idle => trivial
    | pending | ready => exact fun _ hop => nomatch hop
  obtain ⟨_,hQ'⟩ := (h' u.val).answers_run hbs (hself hIu) hpending
  exact ⟨u.val,v.val,hIu,hobs ▸ hQ,hobs' ▸ hQ'⟩

end Object
end Zcs
