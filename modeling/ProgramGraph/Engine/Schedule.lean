import ProgramGraph.Engine.Run
import ProgramGraph.Engine.Wait
/-!
# Schedules

All jobs of one fold and the order in which they go on. One job at a time
is active, and it stays active until it ends or has to wait; then the first
job of the agenda is next. A job is put on the agenda when it is made, when
a job that it waits for has settled, and for the time that it waits for.
So jobs take turns in the order in which they could go on, and the clock
moves only when nothing can go on before a later time. A job whose turn
comes while there is nothing new for it goes on waiting.

The fold itself is the job with number 0; when it ends, the fold is over,
and jobs that have been given up are not followed any further. `step` is
one step of a schedule and calls nothing that recurs over jobs, so however
deep jobs are nested, a fold is the iteration of one function.
-/

namespace ProgramGraph

variable {P : Plugins}

/-- How far a job has come. -/
inductive Stage (P : Plugins)
  /-- It has not begun. -/
  | planned (job : Job)
  /-- It is going on. -/
  | active
  /-- Its run waits. If the wait is for a time, it has a place on the
  agenda. -/
  | waiting (run : Run P) (wait : Wait) (alarm : Option Place)
  /-- It has ended. -/
  | settled (conclusion : Conclusion)

/-- A job on a schedule. -/
structure ScheduledJob (P : Plugins) where
  /-- The job that asked for it. -/
  parent : Option JobId
  stage : Stage P

/-- What a schedule attends to. -/
inductive Focus (P : Plugins)
  /-- A job that is going on. -/
  | job (id : JobId) (next : Next P)
  /-- The agenda, and the world that is handed to the next job. -/
  | agenda (world : World P)

/-- The jobs of a fold. -/
structure Schedule (P : Plugins) where
  /-- The jobs under their numbers. -/
  jobs : Array (ScheduledJob P)
  agenda : Agenda := .empty
  focus : Focus P

/-- What a step of a schedule leads to. -/
inductive Progress (P : Plugins)
  | going (schedule : Schedule P)
  /-- The fold has ended. -/
  | ended (outcome : Outcome P)
  /-- The fold waits for something that never comes. -/
  | stuck

/-- Goes on with a run after a wait. -/
def Run.wake (r : Run P) (world : World P) (wake : Wake) : Next P :=
  let r := { r with world }
  match wake with
  | .elapsed => .resume r .elapsed
  | .settled conclusion =>
    ((r.mapTally (·.merge conclusion.tally)).observe conclusion.tainted).handOver conclusion.result

namespace Schedule

/-- The number of the fold itself. -/
def root : JobId := 0

/-- The schedule of a fold that begins. -/
def start (next : Next P) : Schedule P where
  jobs := #[{ parent := none, stage := .active }]
  focus := .job root next

/-- The stage of a job. -/
def stage? (s : Schedule P) (id : JobId) : Option (Stage P) :=
  s.jobs[id]?.map ScheduledJob.stage

/-- The conclusion of a job that has settled. -/
def conclusion? (s : Schedule P) (id : JobId) : Option Conclusion :=
  match s.stage? id with
  | some (.settled conclusion) => some conclusion
  | _ => none

/-- The schedule with a job at another stage. -/
def setStage (s : Schedule P) (id : JobId) (stage : Stage P) : Schedule P :=
  { s with jobs := s.jobs.modify id ({ · with stage }) }

/-- The schedule with one more job, which is on the agenda, and the number
of the job. -/
def plan (s : Schedule P) (now : Nat) (parent : JobId) (job : Job) : JobId × Schedule P :=
  let id := s.jobs.size
  (id, { s with
    jobs := s.jobs.push ⟨some parent, .planned job⟩
    agenda := (s.agenda.add now id).2 })

/-- The schedule with some more jobs, in order, and their numbers. -/
def planAll (s : Schedule P) (now : Nat) (parent : JobId) (jobs : List Job) :
    List JobId × Schedule P :=
  let ids := List.range' s.jobs.size jobs.length
  (ids, jobs.foldl (fun s job => (s.plan now parent job).2) s)

/-- The wait that a run asks for, after its jobs have been planned. -/
def arrange (s : Schedule P) (now : Nat) (parent : JobId) (await : Await) : Wait × Schedule P :=
  match await with
  | .timer ms answer => (.timer (Wait.dueAfter now ms) answer, s)
  | .job job =>
    let (id, s) := s.plan now parent job
    (.job id, s)
  | .all jobs =>
    let (ids, s) := s.planAll now parent jobs
    (.all [] ids, s)
  | .first job others =>
    let (ids, s) := s.planAll now parent (job :: others)
    (.first ids, s)
  | .deadline ms job =>
    let (id, s) := s.plan now parent job
    (.deadline (Wait.dueAfter now ms) id, s)

/-- Goes on with a run if its wait is over; else the run is put aside, and
the agenda is next. -/
def attend (s : Schedule P) (id : JobId) (run : Run P) (wait : Wait) (alarm : Option Place)
    (world : World P) : Schedule P :=
  match wait.look s.conclusion? world.clock with
  | .inl wake =>
    let agenda := match alarm with
      | some place => s.agenda.remove place
      | none => s.agenda
    { s with agenda, focus := .job id (run.wake world wake) }
  | .inr wait =>
    { s.setStage id (.waiting run wait alarm) with focus := .agenda world }

/-- Begins a wait. It may be over at once; otherwise its time is put on the
agenda, and so is a second look if there are many jobs. -/
def suspend (s : Schedule P) (id : JobId) (run : Run P) (await : Await) : Schedule P :=
  let world := run.world
  let (wait, s) := s.arrange world.clock id await
  match wait.look s.conclusion? world.clock with
  | .inl wake => { s with focus := .job id (run.wake world wake) }
  | .inr wait =>
    let (alarm, agenda) := wait.alarm id s.agenda
    let agenda := wait.secondLook world.clock id agenda
    { { s with agenda }.setStage id (.waiting run wait alarm) with focus := .agenda world }

/-- Settles a job, and puts the job that asked for it on the agenda. -/
def settle (s : Schedule P) (id : JobId) (outcome : Outcome P) : Schedule P :=
  let world := outcome.run.world
  let parent := s.jobs[id]?.bind ScheduledJob.parent
  let s := s.setStage id (.settled outcome.conclusion)
  let agenda := match parent with
    | some parent => (s.agenda.add world.clock parent).2
    | none => s.agenda
  { s with agenda, focus := .agenda world }

/-- Turns to the next job of the agenda. The clock moves to its time. -/
def proceed (E : Engine P) (s : Schedule P) (world : World P) : Progress P :=
  match s.agenda.next? with
  | none => .stuck
  | some ((place, id), agenda) =>
    let s := { s with agenda }
    let world := { world with clock := max world.clock place.time }
    match s.stage? id with
    | some (.planned job) =>
      let next := Run.begin E { scope := job.scope, world } job.node
      .going { s.setStage id .active with focus := .job id next }
    | some (.waiting run wait alarm) =>
      .going ((s.setStage id .active).attend id run wait alarm world)
    | _ => .going { s with focus := .agenda world }

/-- **One step of a schedule.** -/
def step (E : Engine P) (s : Schedule P) : Progress P :=
  match s.focus with
  | .job id (.resume run input) => .going { s with focus := .job id (run.turn E input) }
  | .job id (.wait run await) => .going (s.suspend id run await)
  | .job id (.finish outcome) =>
    if id = root then .ended outcome else .going (s.settle id outcome)
  | .agenda world => s.proceed E world

end Schedule

end ProgramGraph
