import RedisLike.Server.OpLog
import RedisLike.Server.Restart

/-!
# RedisLike.Server.Resumed

The lives of a server, one after another, and the replay of all their logs.

Every life resumes an entry as the one before it has left it, as far as clients can
tell.  A replay that starts without the entry rebuilds it (`ReplayRelation.resumed`).
One that starts with the entry of a snapshot does each command a second time, which
changes nothing if the entry survives a restart (`Restarts.replay_sim`).
-/

namespace RedisLike

open RedisServer

/-- A life of the server: the key space it starts with, and the operations of it
that are left. -/
structure Life where
  start : Dict
  ops : List Op

namespace Life

/-- The key space behind a life. -/
def left (life : Life) : Dict := runOps life.start life.ops

/-- What a life has logged. -/
def records (life : Life) : List RespCommand := opJournal.records life.start life.ops

end Life

/-- Every life goes on with the entry that the one before has left. -/
def Resumes (key : Bytes) (e : Option RedisObject) : List Life → Prop
  | [] => True
  | life :: lives => EntrySim e (life.start.get key) ∧ Resumes key (life.left.get key) lives

/-- The entry that the last life has left. -/
def lastEntry (key : Bytes) (e : Option RedisObject) : List Life → Option RedisObject
  | [] => e
  | life :: lives => lastEntry key (life.left.get key) lives

/-- Every command of the lives meets `P`. -/
def Throughout (P : Dict → Step → Prop) (lives : List Life) : Prop :=
  ∀ life ∈ lives, AlongOps P life.start life.ops

theorem throughout_cons {P : Dict → Step → Prop} {life : Life} {lives : List Life} :
    Throughout P (life :: lives) ↔ AlongOps P life.start life.ops ∧ Throughout P lives :=
  List.forall_mem_cons

theorem throughout_append {P : Dict → Step → Prop} {lives lives' : List Life} :
    Throughout P (lives ++ lives') ↔ Throughout P lives ∧ Throughout P lives' :=
  List.forall_mem_append

section lives

variable {key : Bytes} {e : Option RedisObject} {lives lives' : List Life}

theorem lastEntry_append : lastEntry key e (lives ++ lives') =
    lastEntry key (lastEntry key e lives) lives' := by
  induction lives generalizing e with
  | nil => rfl
  | cons life lives ih => exact ih

theorem resumes_append : Resumes key e (lives ++ lives') ↔
    Resumes key e lives ∧ Resumes key (lastEntry key e lives) lives' := by
  induction lives generalizing e with
  | nil => exact (and_iff_right trivial).symm
  | cons life lives ih => rw [List.cons_append, Resumes, ih, Resumes, lastEntry, and_assoc]

/-- **The lives**, and the replay of their logs. -/
theorem ReplayRelation.resumed {P : Dict → Step → Prop}
    {I : Option RedisObject → Option RedisObject → Prop} (hI : ReplayRelation key P I)
    (moments : Nat → Moment) {s : Nat × Dict} (hresumes : Resumes key e lives)
    (hlives : Throughout P lives) (h : I e (s.2.get key)) :
    I (lastEntry key e lives)
      (((lives.flatMap Life.records).foldl (replayCommand moments) s).2.get key) := by
  induction lives generalizing e s with
  | nil => exact h
  | cons life lives ih =>
      rw [throughout_cons] at hlives
      rw [List.flatMap_cons, List.foldl_append]
      exact ih hresumes.2 hlives.2 (hI.records moments hlives.1 (hI.sim hresumes.1 h))

/-- The lives, and one run without interruption. -/
theorem runOps_lives_sim {db : Dict} (hresumes : Resumes key e lives)
    (hlives : Throughout (Retraced key) lives) (h : EntrySim e (db.get key)) :
    EntrySim (lastEntry key e lives) ((runOps db (lives.flatMap Life.ops)).get key) := by
  induction lives generalizing e db with
  | nil => exact h
  | cons life lives ih =>
      rw [throughout_cons] at hlives
      rw [List.flatMap_cons, runOps_append]
      exact ih hresumes.2 hlives.2 (runOps_sim hlives.1 (hresumes.1.symm.trans h))

end lives

/-! ## Commands that overwrite the entry -/

/-- Some command of the lives overwrites the entry. -/
def Overwritten (key : Bytes) (lives : List Life) : Prop :=
  ∃ life ∈ lives, ∃ fd step, Op.command fd step ∈ life.ops ∧ step.cmd.Overwrites key

section overwritten

variable {key : Bytes} {e : Option RedisObject}

theorem op_overwrites (moments : Nat → Moment) {fd : Nat} {step : Step} {db : Dict}
    {s : Nat × Dict} (h : step.cmd.Overwrites key) :
    EntrySim (((Op.command fd step).after db).get key)
      ((((Op.command fd step).logged db).toList.foldl (replayCommand moments) s).2.get key) := by
  have hsim := @replay_overwrites moments key step db s.2 s.1 h
  rw [loggedCommands, if_pos (logs_of_overwrites h)] at hsim
  rw [Op.logged, if_pos (logs_of_overwrites h)]
  exact hsim

/-- **A replay of the lives** has an entry that they overwrite, whatever it starts
with. -/
theorem Overwritten.replay_sim {lives : List Life} (h : Overwritten key lives)
    (moments : Nat → Moment) (s : Nat × Dict) (hresumes : Resumes key e lives)
    (hlives : Throughout (Retraced key) lives) :
    EntrySim (lastEntry key e lives)
      (((lives.flatMap Life.records).foldl (replayCommand moments) s).2.get key) := by
  obtain ⟨life, hlife, fd, step, hstep, hover⟩ := h
  -- what comes before the command does not matter, and behind it the two agree
  obtain ⟨before, behind, rfl⟩ := List.append_of_mem hlife
  obtain ⟨pre, post, hops⟩ := List.append_of_mem hstep
  rw [resumes_append] at hresumes
  rw [throughout_append, throughout_cons] at hlives
  obtain ⟨-, -, hbehind⟩ := hresumes
  obtain ⟨-, halong, hlives⟩ := hlives
  rw [hops, alongOps_append, AlongOps] at halong
  have hrecords : life.records = opJournal.records life.start pre ++
      ((Op.command fd step).logged (runOps life.start pre)).toList ++
        opJournal.records ((Op.command fd step).after (runOps life.start pre)) post := by
    rw [Life.records, hops, Journal.records_append, List.append_assoc]
    rfl
  have hleft : life.left =
      runOps ((Op.command fd step).after (runOps life.start pre)) post := by
    rw [Life.left, hops, runOps_append, runOps_cons]
  rw [lastEntry_append, lastEntry, List.flatMap_append, List.flatMap_cons, hrecords,
    List.foldl_append, List.foldl_append, List.foldl_append, List.foldl_append]
  refine (entrySim_relation key).resumed moments hbehind hlives ?_
  rw [hleft]
  exact (entrySim_relation key).records moments halong.2.2 (op_overwrites moments hover)

end overwritten

/-! ## Commands that are done a second time -/

/-- What the command does to the key can be done again on top of a later entry. -/
def CalmAt (key : Bytes) (db : Dict) (step : Step) : Prop :=
  ¬ step.cmd.Overwrites key ∧ (key = step.cmd.args.getD 0 [] → Calm key db step)

section calm

variable {key : Bytes} {db : Dict} {step : Step}

theorem CalmAt.retraced (h : CalmAt key db step) : Retraced key db step :=
  fun hkey => (h.2 hkey).clean

/-- A command that is not on the key does nothing to it. -/
theorem entryEffect_of_ne {cmd : RespCommand} (hkey : key ≠ cmd.args.getD 0 [])
    (hkeeps : ¬ cmd.Overwrites key) (now : TimePoint) (rng : Nat → Nat → Nat)
    (e : Option RedisObject) : entryEffect cmd now rng key e = e := by
  cases effectOf cmd key with
  | idle heffect => exact heffect now rng e
  | del hname hmem _ => exact absurd (.inl ⟨hname, hmem⟩) hkeeps
  | set _ heq _ => exact absurd heq hkey
  | expire _ heq _ _ _ => exact absurd heq hkey
  | typed _ _ _ heq _ _ _ => exact absurd heq hkey

/-- A relation that the steady commands keep. -/
theorem replayRelation_of_steady {P : Dict → Step → Prop}
    {I : Option RedisObject → Option RedisObject → Prop}
    (hpermanent : ∀ {e e'}, I e e' → Permanent e ∧ Permanent e')
    (hsim : ∀ {e e₁ e'}, EntrySim e e₁ → I e e' → I e₁ e')
    (hcalm : ∀ {db step}, P db step → CalmAt key db step)
    (hsteady : ∀ {db : Dict} {step : Step} {e'} (m : Moment), P db step →
      step.cmd.Steady key (db.get key) →
      (response db step).2.get key = entryEffect step.cmd step.now step.rng key (db.get key) →
      I (db.get key) e' → I (entryEffect step.cmd step.now step.rng key (db.get key))
        (entryEffect step.cmd m.now m.rng key e')) : ReplayRelation key P I where
  permanent := hpermanent
  sim := hsim
  retraced hP := (hcalm hP).retraced
  step {db step e'} m hP hlogs h := by
    obtain ⟨hkeeps, hcalm⟩ := hcalm hP
    by_cases hkey : key = step.cmd.args.getD 0 []
    -- only commands on the key have to be steady
    · have hperm := (hpermanent h).1
      exact hsteady m hP ((hcalm hkey).steady hperm hlogs) (get_command hperm) h
    · rw [entryEffect_of_ne hkey hkeeps, entryEffect_of_ne hkey hkeeps]
      exact h

/-! ## Strings -/

theorem isString_sim {e e' : Option RedisObject} (h : EntrySim e e') (hs : IsString e) :
    IsString e' := by
  obtain ⟨obj, rfl, htype⟩ := hs
  cases h with
  | some h => exact ⟨_, rfl, h.same.objType_eq ▸ htype⟩

theorem stringAgain_relation {obj : RedisObject} (hstring : obj.value.objType = .string)
    (hpermanent : Permanent (some obj)) : ReplayRelation key (CalmAt key) (StringAgain obj) := by
  refine replayRelation_of_steady (fun h => ?_) (fun hsim h => ?_) id
    fun m _ hs _ h => h.step hstring hs
  · obtain h | ⟨hperm, rfl⟩ := h
    · exact h.permanent
    · exact ⟨hperm, hpermanent⟩
  · obtain h | ⟨-, rfl⟩ := h
    · exact .inl (hsim.symm.trans h)
    · exact .inr ⟨hsim.permanent.2, rfl⟩

theorem CalmAt.isString (h : CalmAt key db step) (hperm : Permanent (db.get key))
    (hs : IsString (db.get key)) : IsString ((response db step).2.get key) := by
  by_cases hkey : key = step.cmd.args.getD 0 []
  · exact (h.2 hkey).isString hperm hs
  · rw [get_command hperm, entryEffect_of_ne hkey h.1]
    exact hs

/-- Calm operations do not take a string away. -/
theorem isString_runOps {ops : List Op} (hops : AlongOps (CalmAt key) db ops)
    (hsim : EntrySim (db.get key) (db.get key)) (hs : IsString (db.get key)) :
    IsString ((runOps db ops).get key) := by
  induction ops generalizing db with
  | nil => exact hs
  | cons op ops ih =>
      have hretraced : ∀ fd step, op = .command fd step → Retraced key db step :=
        fun fd step hop => (hops.1 fd step hop).retraced
      refine ih hops.2 (Op.after_sim hretraced hsim) ?_
      cases op with
      | accept fd => exact hs
      | expireCheck now rng =>
          rw [Op.after, get_expireCheck_of_permanent hsim.permanent.1]
          exact hs
      | command fd step => exact (hops.1 fd step rfl).isString hsim.permanent.1 hs

/-- A calm command that leaves no string. -/
def NeverString (key : Bytes) (db : Dict) (step : Step) : Prop :=
  CalmAt key db step ∧ ¬ IsString ((response db step).2.get key)

/-- An entry that is no string in the end never was one. -/
theorem alongOps_neverString {ops : List Op} (hops : AlongOps (CalmAt key) db ops)
    (hsim : EntrySim (db.get key) (db.get key)) (hend : ¬ IsString ((runOps db ops).get key)) :
    AlongOps (NeverString key) db ops := by
  induction ops generalizing db with
  | nil => trivial
  | cons op ops ih =>
      have hnext : EntrySim ((op.after db).get key) ((op.after db).get key) :=
        Op.after_sim (fun fd step hop => (hops.1 fd step hop).retraced) hsim
      refine ⟨fun fd step hop => ⟨hops.1 fd step hop, fun hs => hend ?_⟩, ih hops.2 hnext hend⟩
      subst hop
      have hrun := isString_runOps hops.2 hnext hs
      exact hrun

theorem isString_lastEntry {e : Option RedisObject} {lives : List Life}
    (hresumes : Resumes key e lives) (hlives : Throughout (CalmAt key) lives) (hs : IsString e) :
    IsString (lastEntry key e lives) := by
  induction lives generalizing e with
  | nil => exact hs
  | cons life lives ih =>
      rw [throughout_cons] at hlives
      exact ih hresumes.2 hlives.2
        (isString_runOps hlives.1 hresumes.1.symm.left_refl (isString_sim hresumes.1 hs))

theorem throughout_neverString {e : Option RedisObject} {lives : List Life}
    (hresumes : Resumes key e lives) (hlives : Throughout (CalmAt key) lives)
    (hend : ¬ IsString (lastEntry key e lives)) : Throughout (NeverString key) lives := by
  induction lives generalizing e with
  | nil => exact fun _ h => absurd h List.not_mem_nil
  | cons life lives ih =>
      rw [throughout_cons] at hlives ⊢
      refine ⟨alongOps_neverString hlives.1 hresumes.1.symm.left_refl fun hs => hend ?_,
        ih hresumes.2 hlives.2 hend⟩
      have hlast := isString_lastEntry hresumes.2 hlives.2 hs
      exact hlast

/-! ## Collections -/

theorem Collection.Holds.of_sim {α β : Type} {C : Collection α β} {cells : Bytes → Option β}
    {e e' : Option RedisObject} (h : C.Holds e cells) (hsim : EntrySim e e') :
    C.Holds e' cells := by
  obtain ⟨cells', he, he'⟩ := C.exists_holds hsim fun obj hobj => by
    subst hobj
    exact h.objType_eq
  exact h.unique he ▸ he'

theorem collectionAgain_relation {α β : Type} {C : Collection α β} (hC : C.Replayable)
    (cells : Bytes → Option β) :
    ReplayRelation key (NeverString key) (CollectionAgain C cells) := by
  refine replayRelation_of_steady (fun h => ?_) (fun hsim h => ?_) And.left
    fun m hP hs hget h => h.step hC hs fun obj hobj hstring => hP.2 ⟨obj, hget.trans hobj, hstring⟩
  · obtain h | ⟨ws, he', -, hperm, -⟩ := h
    · exact h.permanent
    · exact ⟨hperm, he'.permanent⟩
  · obtain h | ⟨ws, he', hne, -, he⟩ := h
    · exact .inl (hsim.symm.trans h)
    · refine .inr ⟨ws, he', hne, hsim.permanent.2, ?_⟩
      obtain he | ⟨hempty, obj, rfl, htype⟩ := he
      · exact .inl (he.of_sim hsim)
      · cases hsim with
        | @some _ obj' h =>
            exact .inr ⟨hempty, obj', rfl, fun heq => htype (h.same.objType_eq.trans heq)⟩

end calm

/-! ## Restarts -/

/-- The entry survives a restart on a snapshot of it: some command overwrites it; or
it is not there; or it is no list, and every logged command on it has met its own
type and sets no deadline. -/
def Restarts (key : Bytes) (lives : List Life) : Prop :=
  Overwritten key lives ∨ lastEntry key none lives = none ∨
    (∀ obj, lastEntry key none lives = some obj → obj.value.objType ≠ .list) ∧
      Throughout (CalmAt key) lives

section restarts

variable {key : Bytes} {lives : List Life}

/-- An entry on top of itself, from a collection. -/
theorem replay_collection {α β : Type} {C : Collection α β} (hC : C.Replayable)
    (moments : Nat → Moment) {s : Nat × Dict} (hresumes : Resumes key none lives)
    (hlives : Throughout (CalmAt key) lives)
    (hend : EntrySim (lastEntry key none lives) (s.2.get key)) {obj : RedisObject}
    (hobj : lastEntry key none lives = some obj) (htype : obj.value.objType = C.type)
    (hne : C.type ≠ .string) :
    EntrySim (lastEntry key none lives)
      (((lives.flatMap Life.records).foldl (replayCommand moments) s).2.get key) := by
  obtain ⟨cells, hrun, hreplay⟩ := C.exists_holds hend fun o ho => by
    rw [hobj] at ho
    cases ho
    exact htype
  have hstart : CollectionAgain C cells none (s.2.get key) := by
    refine .inr ⟨[], hreplay, fun hnone => ?_, permanent_none, .inl .missing⟩
    rw [hobj, hnone] at hend
    cases hend
  have hnot : ¬ IsString (lastEntry key none lives) := by
    rintro ⟨o, ho, hstring⟩
    rw [hobj] at ho
    cases ho
    exact hne (htype.symm.trans hstring)
  exact ((collectionAgain_relation hC cells).resumed moments hresumes
    (throughout_neverString hresumes hlives hnot) hstart).sim hrun

/-- An entry on top of itself, from a string. -/
theorem replay_string (moments : Nat → Moment) {s : Nat × Dict}
    (hresumes : Resumes key none lives) (hlives : Throughout (CalmAt key) lives)
    (hend : EntrySim (lastEntry key none lives) (s.2.get key)) {obj : RedisObject}
    (hobj : lastEntry key none lives = some obj) (htype : obj.value.objType = .string) :
    EntrySim (lastEntry key none lives)
      (((lives.flatMap Life.records).foldl (replayCommand moments) s).2.get key) := by
  obtain ⟨obj', hobj', htype'⟩ := isString_sim hend ⟨obj, hobj, htype⟩
  have hperm' := hend.permanent.2
  rw [hobj'] at hperm'
  have hagain := (stringAgain_relation htype' hperm').resumed moments hresumes hlives
    (.inr ⟨permanent_none, hobj'⟩)
  obtain hagain | ⟨-, heq⟩ := hagain
  · exact hagain
  · rw [heq, ← hobj']
    exact hend

/-- **An entry through a restart**: the replay of the lives starts without it, or with
what a snapshot behind them has of it. -/
theorem Restarts.replay_sim (h : Restarts key lives) (moments : Nat → Moment) {s : Nat × Dict}
    (hresumes : Resumes key none lives) (hlives : Throughout (Retraced key) lives)
    (hs : s.2.get key = none ∨ EntrySim (lastEntry key none lives) (s.2.get key)) :
    EntrySim (lastEntry key none lives)
      (((lives.flatMap Life.records).foldl (replayCommand moments) s).2.get key) := by
  have hmissing : s.2.get key = none → EntrySim (lastEntry key none lives)
      (((lives.flatMap Life.records).foldl (replayCommand moments) s).2.get key) := fun hnone =>
    (entrySim_relation key).resumed moments hresumes hlives (hnone ▸ EntrySim.none)
  obtain hnone | hend := hs
  · exact hmissing hnone
  have hgone : lastEntry key none lives = none → s.2.get key = none := by
    intro hnone
    rw [hnone] at hend
    generalize s.2.get key = e at hend
    cases hend
    rfl
  obtain hover | hnone | ⟨hlist, hcalm⟩ := h
  · exact hover.replay_sim moments s hresumes hlives
  · exact hmissing (hgone hnone)
  cases hobj : lastEntry key none lives with
  | none => exact hobj ▸ hmissing (hgone hobj)
  | some obj =>
      rw [← hobj]
      cases htype : obj.value.objType with
      | list => exact absurd htype (hlist obj hobj)
      | string => exact replay_string moments hresumes hcalm hend hobj htype
      | hash =>
          exact replay_collection hashes_replayable moments hresumes hcalm hend hobj htype
            (by decide)
      | set =>
          exact replay_collection sets_replayable moments hresumes hcalm hend hobj htype (by decide)
      | zset =>
          exact replay_collection sortedSets_replayable moments hresumes hcalm hend hobj htype
            (by decide)

end restarts

end RedisLike
