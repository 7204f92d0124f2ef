import Zcs.Locks.Operations

/-! # The order of the locks

Every operation is checked once with whatever its caller may hold: locks of lower
rank than any that the operation takes. The rules of the library then give the order
for all threads and all interleavings.
-/
namespace Zcs.Locks
open LockCmd Log

variable {root : ℕ} {held : List Lock}

variable (root) in
/-- All held locks rank below `k`. -/
def Below (k : ℕ) (held : List Lock) : Prop := ∀ y ∈ held, rank root y < k

theorem below_nil (k : ℕ) : Below root k [] := by simp [Below]

theorem Below.cons {k : ℕ} {x : Lock} (h : Below root (rank root x) held) (hx : rank root x < k) :
    Below root k (x :: held) := by
  intro y hy
  rcases List.mem_cons.mp hy with rfl | hy
  · exact hx
  · exact (h y hy).trans hx

theorem Below.mono {j k : ℕ} (h : Below root j held) (hjk : j ≤ k) : Below root k held :=
  fun y hy => (h y hy).trans_le hjk

theorem ascends_leaf {m : LockMode} {x : Lock} (h : Below root (rank root x) held) :
    (locked m x skip).Ascends (rank root) held :=
  ⟨h,trivial⟩

theorem rank_logger (root l : ℕ) : 3 ≤ rank root (.logger l) ∧ rank root (.logger l) < 5 := by
  simp only [rank]
  split_ifs <;> omega

theorem LogAppender.ascends_new (kind : AppenderKind) (a : ℕ) (h : Below root 5 held) :
    (LogAppender.new kind a).Ascends (rank root) held := by
  cases kind with
  | stdout => trivial
  | file f => exact ascends_leaf h

theorem LogAppender.ascends_log (kind : AppenderKind) (a : ℕ) (h : Below root 5 held) :
    (LogAppender.log kind a).Ascends (rank root) held := by
  cases kind with
  | stdout => exact ascends_leaf h
  | file f =>
    refine ⟨fun late => ?_,ascends_leaf h⟩
    cases late with
    | true => exact ascends_leaf h
    | false => trivial

theorem Logger.ascends_logAll (as : List (AppenderKind × ℕ)) (h : Below root 5 held) :
    (each (fun a : AppenderKind × ℕ => LogAppender.log a.1 a.2) as).Ascends (rank root) held :=
  .each fun a _ => LogAppender.ascends_log a.1 a.2 h

theorem Logger.ascends_logRoot (h : Below root 4 held) : (Logger.logRoot root).Ascends (rank root) held := by
  have hrank : rank root (.logger root) = 4 := by simp [rank]
  have hroot : Below root (rank root (.logger root)) held := h.mono (by omega)
  exact ⟨hroot,fun as => Logger.ascends_logAll as.val (hroot.cons (by omega))⟩

/-- Whatever it falls back to, a log line takes loggers and appenders only. -/
theorem Logger.ascends_log (l : ℕ) (h : Below root 3 held) : (Logger.log root l).Ascends (rank root) held := by
  unfold Logger.log
  split_ifs with hl
  · exact Logger.ascends_logRoot (h.mono (by omega))
  · have hrank : rank root (.logger l) = 3 := by simp [rank,hl]
    have hlogger : Below root (rank root (.logger l)) held := h.mono (by omega)
    refine ⟨hlogger,fun as => ?_⟩
    dsimp only
    split_ifs
    · exact Logger.ascends_logAll as (hlogger.cons (by omega))
    · exact Logger.ascends_logRoot (hlogger.cons (by omega))

/-- The methods that lock a logger and nothing else. -/
theorem Logger.ascends_leaf (l : ℕ) (h : Below root 3 held) :
    (lock (.logger l) skip).Ascends (rank root) held :=
  Locks.ascends_leaf (h.mono (rank_logger root l).1)

theorem Logger.ascends_addAppender (l a : ℕ) (h : Below root 3 held) :
    (Logger.addAppender l a).Ascends (rank root) held := by
  obtain ⟨hlow,hhigh⟩ := rank_logger root l
  have hlogger := h.mono hlow
  exact ⟨hlogger,Locks.ascends_leaf (hlogger.cons hhigh)⟩

theorem Logger.ascends_setFormatterText (l : ℕ) (format : Text) (h : Below root 3 held) :
    (Logger.setFormatterText l format).Ascends (rank root) held := by
  unfold Logger.setFormatterText
  split_ifs
  · trivial
  · exact Logger.ascends_leaf l h

theorem Logger.ascends_toYamlString (l : ℕ) (h : Below root 3 held) :
    (Logger.toYamlString l).Ascends (rank root) held := by
  obtain ⟨hlow,hhigh⟩ := rank_logger root l
  have hlogger := h.mono hlow
  exact ⟨hlogger,fun as => .each fun a _ => Locks.ascends_leaf (hlogger.cons hhigh)⟩

namespace LoggerManager

theorem ascends_getLogger (h : Below root 2 held) : getLogger.Ascends (rank root) held := ascends_leaf h

theorem ascends_toYamlString (h : Below root 2 held) : toYamlString.Ascends (rank root) held := by
  have hmanager : Below root (rank root .manager) held := h
  exact ⟨h,fun ls => .each fun l _ => Logger.ascends_toYamlString l (hmanager.cons (by simp [rank]))⟩

theorem ascends_addDefined (l : ℕ) (d : LogAppenderDefine) (h : Below root 3 held) :
    (addDefined l d).Ascends (rank root) held := by
  have happender : Below root 5 held := h.mono (by omega)
  unfold addDefined
  split
  · trivial
  · refine fun a => ⟨LogAppender.ascends_new _ a happender,?_,Logger.ascends_addAppender l a h⟩
    split_ifs
    · exact ascends_leaf happender
    · trivial

theorem ascends_applyDefine (i : LogDefine) (h : Below root 2 held) :
    (applyDefine i).Ascends (rank root) held := by
  have hlogger : Below root 3 held := h.mono (by omega)
  refine ⟨ascends_getLogger h,fun l => ⟨?_,Logger.ascends_leaf l hlogger,.each fun d _ =>
    ascends_addDefined l d hlogger⟩⟩
  split_ifs
  · trivial
  · exact Logger.ascends_setFormatterText l i.formatter hlogger

theorem ascends_addOrChange (oldVal : LogDefines) (i : LogDefine) (h : Below root 2 held) :
    (addOrChange oldVal i).Ascends (rank root) held := by
  unfold addOrChange
  split
  · exact ascends_applyDefine i h
  · split_ifs
    · trivial
    · exact ascends_applyDefine i h

theorem ascends_delete (newVal : LogDefines) (j : LogDefine) (h : Below root 2 held) :
    (delete newVal j).Ascends (rank root) held := by
  unfold delete
  split
  · trivial
  · exact ⟨ascends_getLogger h,fun l => Logger.ascends_leaf l (h.mono (by omega))⟩

theorem ascends_logIniter (h : Below root 2 held) : (logIniter root).Ascends (rank root) held :=
  fun vals => ⟨Logger.ascends_log root (h.mono (by omega)),.each fun i _ => ascends_addOrChange vals.2 i h,
    .each fun j _ => ascends_delete vals.1 j h⟩

end LoggerManager

namespace ConfigVar

theorem ascends_setValue (v : ℕ) (h : Below root 1 held) : (setValue root v).Ascends (rank root) held := by
  have hvar : Below root (rank root (.var v)) held := h
  intro same
  cases same with
  | true => exact ascends_leaf h
  | false =>
    refine ⟨⟨h,?_⟩,ascends_leaf h⟩
    unfold callbacks
    split_ifs
    · exact LoggerManager.ascends_logIniter (hvar.cons (by simp [rank]))
    · trivial

theorem ascends_fromString (v : ℕ) (h : Below root 1 held) : (fromString root v).Ascends (rank root) held := by
  intro converted
  cases converted with
  | true => exact ascends_setValue v h
  | false => exact Logger.ascends_log root (h.mono (by omega))

theorem ascends_toString (v : ℕ) (h : Below root 1 held) : (toString root v).Ascends (rank root) held := by
  refine ⟨ascends_leaf h,fun converted => ?_⟩
  cases converted with
  | true => trivial
  | false => exact Logger.ascends_log root (h.mono (by omega))

end ConfigVar

namespace Config

theorem ascends_lookUp : (lookUp root).Ascends (rank root) [] := by
  have hconfig : Below root (rank root .config) [] := below_nil _
  refine ⟨hconfig,fun logged => ?_⟩
  cases logged with
  | true => exact Logger.ascends_log root (hconfig.cons (by simp [rank]))
  | false => trivial

theorem ascends_loadFromYaml (gLogger : ℕ) : (loadFromYaml root gLogger).Ascends (rank root) [] := by
  refine ⟨fun invalid => .each fun _ _ => Logger.ascends_log gLogger (below_nil 3),fun keys =>
    .each fun found _ => ⟨ascends_leaf (below_nil _),?_⟩⟩
  cases found with
  | none => trivial
  | some v => exact ConfigVar.ascends_fromString v (below_nil 1)

theorem ascends_visit : (visit root).Ascends (rank root) [] := by
  have hconfig : Below root 1 [Lock.config] := (below_nil (rank root .config)).cons (by simp [rank])
  refine ⟨below_nil _,fun readings => .each fun r _ => ?_⟩
  cases r with
  | toString v => exact ConfigVar.ascends_toString v hconfig
  | getValue v => exact ascends_leaf hconfig
  | getLogger => exact LoggerManager.ascends_getLogger (hconfig.mono (by omega))
  | log l => exact Logger.ascends_log l (hconfig.mono (by omega))

end Config

theorem Operation.ascends (o : Operation) : (o.cmd root).Ascends (rank root) [] := by
  have hleaf : ∀ {m x}, (locked m x skip).Ascends (rank root) [] := ascends_leaf (below_nil _)
  cases o with
  | lookUp => exact Config.ascends_lookUp
  | loadFromYaml gLogger => exact Config.ascends_loadFromYaml gLogger
  | visit => exact Config.ascends_visit
  | toString v => exact ConfigVar.ascends_toString v (below_nil 1)
  | fromString v => exact ConfigVar.ascends_fromString v (below_nil 1)
  | setValue v => exact ConfigVar.ascends_setValue v (below_nil 1)
  | managerToYamlString => exact LoggerManager.ascends_toYamlString (below_nil 2)
  | log l => exact Logger.ascends_log l (below_nil 3)
  | addAppender l a => exact Logger.ascends_addAppender l a (below_nil 3)
  | setFormatterText l format => exact Logger.ascends_setFormatterText l format (below_nil 3)
  | loggerToYamlString l => exact Logger.ascends_toYamlString l (below_nil 3)
  | newAppender kind a => exact LogAppender.ascends_new kind a (below_nil 5)
  | appenderLog kind a => exact LogAppender.ascends_log kind a (below_nil 5)
  | lookUpBase | getValue _ | addListener _ | delListener _ | clearListener _ | getLogger
  | delAppender _ | clearAppender _ | setFormatter _ | getFormatter _ | appenderSetFormatter _
  | appenderGetFormatter _ | reopen _ | appenderToYamlString _ => exact hleaf

variable (root) in
/-- Threads that run any operations, one after the other. -/
def threads {ι : Type} (ops : ι → List Operation) (t : ι) : List (LockItem Lock) :=
  (ops t).map fun o => .run (o.cmd root)

open LockItem in
/-- In every reachable state each thread takes only locks that rank above all that it
holds, and no threads wait for each other in a circle. -/
theorem locks_ordered {ι : Type} [DecidableEq ι] (ops : ι → List Operation)
    {s : ι → List (LockItem Lock)} (h : Relation.ReflTransGen Step (threads root ops) s) :
    (∀ t x, Takes s t x → ∀ y ∈ LockItem.held (s t), rank root y < rank root x) ∧
      ∀ t, ¬ Relation.TransGen (WaitsFor s) t t := by
  have hstart : ∀ t, Ascending (rank root) (threads root ops t) := by
    intro t
    have hruns : threads root ops t = ((ops t).map fun o => o.cmd root).map LockItem.run := by
      simp [threads]
    rw [hruns]
    refine ascending_of_runs fun c hc => ?_
    obtain ⟨o,_,rfl⟩ := List.mem_map.mp hc
    exact o.ascends
  have hs := Ascending.reachable h hstart
  exact ⟨fun t x hx y hy => lt_of_takes hs hx hy,fun t => not_waitsFor_cycle hs t⟩

/-- The value of 'logs' changes while an event is logged that has fallen back to the root. -/
def busy : Bool → List Operation
  | false => [.setValue ConfigVar.logs]
  | true => [.log 1]

theorem locks_ordered_logging : ∃ s : Bool → List (LockItem Lock),
    Relation.ReflTransGen LockItem.Step (threads 0 busy) s ∧
      LockItem.held (s false) = [.var ConfigVar.logs] ∧ LockItem.held (s true) = [.logger 0,.logger 1] ∧
      LockItem.WaitsFor s false true ∧ LockItem.Takes s true (.appender 0) ∧
      ¬ Relation.TransGen (LockItem.WaitsFor s) false false := by
  have hrun : Relation.ReflTransGen LockItem.Step (threads 0 busy) _ :=
    .head (.acquire (t := true) rfl (LockItem.free_of_not_held (by decide))) <|
    .head (.any (t := true) rfl ([] : List (AppenderKind × ℕ))) <|
    .head (.acquire (t := true) rfl (LockItem.free_of_not_held (by decide))) <|
    .head (.any (t := true) rfl ⟨[(.stdout,0)],List.cons_ne_nil _ _⟩) <|
    .head (.seq (t := true) rfl) <|
    .head (.any (t := false) rfl false) <|
    .head (.seq (t := false) rfl) <|
    .head (.acquire (t := false) rfl (LockItem.free_of_not_held (by decide))) <|
    .head (.any (t := false) rfl (.empty,.empty)) <|
    .head (.seq (t := false) rfl) .refl
  refine ⟨_,hrun,rfl,rfl,⟨.logger 0,⟨_,_,_,rfl⟩,?_⟩,⟨_,_,_,rfl⟩,(locks_ordered _ hrun).2 false⟩
  exact List.mem_cons_self

end Zcs.Locks
