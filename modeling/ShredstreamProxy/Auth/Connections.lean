import ShredstreamProxy.Auth.TokenRefresh
import ShredstreamProxy.Lib.EventRun
import ShredstreamProxy.Lib.Family

/-!
# Connections to the block engine

The heartbeat thread holds at most one connection.  Every connection has a token refresh task of its
own, which runs beside the thread, and a flag that tells the task to stop; the flag is scoped to the
connection, so that leaving the scope in any way sets it.  A task only looks at its flag at the head
of its loop, so tasks of old connections may still be there when a new one is made.  This module
embeds the thread, the tasks and their flags as one machine, in which a task has a step for its look
at the flag, one for its look at the clock, and one for every answer of the auth service.

Main results:

- Theorem {lit}`Connection.run_iteration`: an iteration that nothing comes between is one of the
  task alone.
- Theorem {lit}`heartbeats_carry_own_token`: which token a heartbeat carries.
- Theorem {lit}`ended_connections_wind_down`: what old connections can still do.
-/

namespace ShredstreamProxy

open Exec Family

/-! ## The machine -/

/-- Where a task stands in its loop. -/
inductive TokenStage where
  /-- At the head of its loop. -/
  | looking
  /-- It has seen that its flag is not set. -/
  | planning
  /-- It has asked for a challenge. -/
  | challenge
  /-- It has asked for tokens with the signed challenge. -/
  | tokens (challenge : String)
  /-- It has asked for a new access token. -/
  | refresh
  | sleeping
deriving DecidableEq

/-- A connection: its flag, its task, where the task stands, whether the task was aborted, and the
number of requests to the auth service, which nothing reads. -/
structure Connection where
  perConExit : Bool
  task : TokenTask
  stage : TokenStage
  aborted : Bool
  questions : Nat

inductive TokenEvent where
  /-- The task looks at its flag. -/
  | look
  /-- The task looks at the clock, and asks the auth service or goes to sleep. -/
  | start (now : SystemTime)
  | challenge (reply : Except Unit String)
  | tokens (reply : Except Unit GenerateAuthTokensResponse)
  | refresh (reply : Except Unit RefreshAccessTokenResponse)
  | wake

/-- Where the heartbeat thread stands. -/
inductive HeartbeatScope where
  /-- At the head of its outer loop, without a connection. -/
  | disconnected
  /-- It waits for the auth service and the block engine. -/
  | connecting
  | connected
  | ended
  | panicked
deriving DecidableEq

/-- The heartbeat thread, all connections that were made, and the headers of the heartbeats that
were sent, each with the number of its connection. -/
structure Connections where
  exit : Bool
  scope : HeartbeatScope
  connections : List Connection
  sent : List (Nat × String)

inductive ConnectionEvent where
  /-- The process is told to stop. -/
  | exit
  /-- The thread looks at the exit flag and starts to connect. -/
  | connect
  /-- The thread is connected, or fails to; without a channel there are no answers. -/
  | connected (replies : Option AuthReplies)
  /-- A heartbeat is sent, and refused as invalid or not. -/
  | heartbeat (invalidArgument : Bool)
  /-- No shreds have arrived, and the connection is given up. -/
  | restart
  /-- The inner loop ends. -/
  | leave
  /-- The outer loop ends. -/
  | finish
  /-- A step of the task of a connection. -/
  | task (i : Nat) (e : TokenEvent)
  /-- A task that was aborted, or whose runtime is gone with the thread, is cancelled where it
  waits. -/
  | cancel (i : Nat)

/-- The interceptor adds the token to a request.  The text has to be a valid header. -/
def Interceptor.call (isMetadata : String → Bool) (bearerToken : String) : Except Unit String :=
  if bearerToken.isEmpty then .error ()
  else
    let authorization := "Bearer " ++ bearerToken
    if isMetadata authorization then .ok authorization else .error ()

namespace Connection

/-- The task of a new connection. -/
def new (task : TokenTask) : Connection := ⟨false, task, .looking, false, 0⟩

/-- The scope of the connection is left. -/
def drop (c : Connection) : Connection := { c with perConExit := true }

/-- The task sends a request, and waits for its answer. -/
def ask (c : Connection) (stage : TokenStage) : Connection :=
  { c with stage, questions := c.questions + 1 }

/-- The checks of an iteration whose flag was not set. -/
def start (toSystemTime : Timestamp → Option SystemTime) (c : Connection) (now : SystemTime) :
    Connection :=
  match c.task.plan toSystemTime now with
  | .error _ => { c with task := { c.task with phase := .panicked }, stage := .looking }
  | .ok .fullAuth => c.ask .challenge
  | .ok .refreshAccessToken => c.ask .refresh
  | .ok .sleep => { c with stage := .sleeping }

/-- One step of the task. -/
def step (toSystemTime : Timestamp → Option SystemTime) (c : Connection) (e : TokenEvent) :
    Option Connection :=
  if c.task.phase ≠ .running then none
  else
    match e, c.stage with
    | .look, .looking =>
        if c.perConExit then some { c with task := { c.task with phase := .exited } }
        else some { c with stage := .planning }
    | .start now, .planning => some (c.start toSystemTime now)
    | .challenge (.error _), .challenge => some { c with stage := .looking }
    | .challenge (.ok challenge), .challenge => some (c.ask (.tokens challenge))
    | .tokens reply, .tokens challenge =>
        some { c with task := c.task.fullAuth ⟨.ok challenge, reply⟩, stage := .looking }
    | .refresh reply, .refresh =>
        some { c with task := c.task.refreshAccessToken reply, stage := .looking }
    | .wake, .sleeping => some { c with stage := .looking }
    | _, _ => none

/-- The task is cancelled where it waits. -/
def cancel (c : Connection) : Option Connection :=
  if c.task.phase = .running ∧ c.stage ≠ .planning then
    some { c with task := { c.task with phase := .exited }, stage := .looking }
  else none

end Connection

namespace Connections

def initial : Connections := ⟨false, .disconnected, [], []⟩

/-- Change the connection that is in scope. -/
def modifyLast (s : Connections) (f : Connection → Connection) : List Connection :=
  s.connections.modify (s.connections.length - 1) f

/-- One step of a task. -/
def stepTask (s : Connections) (i : Nat) (f : Connection → Option Connection) :
    Option Connections :=
  match s.connections[i]? with
  | some c => (f c).map fun c' => { s with connections := s.connections.set i c' }
  | none => none

/-- One step of the thread or of a task. -/
def step (toSystemTime : Timestamp → Option SystemTime) (isMetadata : String → Bool)
    (s : Connections) : ConnectionEvent → Option Connections
  | .exit => some { s with exit := true }
  | .connect =>
      match s.scope, s.exit with
      | .disconnected, false => some { s with scope := .connecting }
      | _, _ => none
  | .connected replies =>
      match s.scope with
      | .connecting =>
          match replies.map TokenTask.new with
          | some (.ok task) =>
              some
                { s with
                  scope := .connected
                  connections := s.connections ++ [Connection.new task] }
          | _ => some { s with scope := .disconnected }
      | _ => none
  | .heartbeat invalidArgument =>
      match s.scope, s.connections.getLast? with
      | .connected, some c =>
          match Interceptor.call isMetadata c.task.bearerToken with
          | .error _ =>
              -- the error counts as an invalid argument, and unwinding leaves the scope
              some { s with scope := .panicked, connections := s.modifyLast Connection.drop }
          | .ok authorization =>
              let sent := s.sent ++ [(s.connections.length - 1, authorization)]
              if invalidArgument then
                some
                  { s with
                    scope := .panicked
                    connections := s.modifyLast Connection.drop
                    sent }
              else some { s with sent }
      | _, _ => none
  | .restart =>
      match s.scope with
      | .connected =>
          some
            { s with
              scope := .disconnected
              connections := s.modifyLast fun c => { c.drop with aborted := true } }
      | _ => none
  | .leave =>
      match s.scope, s.exit with
      | .connected, true =>
          some { s with scope := .disconnected, connections := s.modifyLast Connection.drop }
      | _, _ => none
  | .finish =>
      match s.scope, s.exit with
      | .disconnected, true => some { s with scope := .ended }
      | _, _ => none
  | .task i e => s.stepTask i fun c => c.step toSystemTime e
  | .cancel i =>
      s.stepTask i fun c =>
        if c.aborted ∨ s.scope = .ended ∨ s.scope = .panicked then c.cancel else none

def run (toSystemTime : Timestamp → Option SystemTime) (isMetadata : String → Bool)
    (events : List ConnectionEvent) : Option Connections :=
  EventRun.run (step toSystemTime isMetadata) initial events

end Connections

/-! ## Iterations -/

/-- The answers that an iteration gets to what it asks.  Without a challenge it does not ask for
tokens. -/
def TokenIteration.answers (e : TokenIteration) : TokenPlan → List TokenEvent
  | .fullAuth =>
      match e.authReplies.challenge with
      | .error _ => [.challenge (.error ())]
      | .ok challenge => [.challenge (.ok challenge), .tokens e.authReplies.tokens]
  | .refreshAccessToken => [.refresh e.refreshReply]
  | .sleep => [.wake]

namespace Connection

variable {toSystemTime : Timestamp → Option SystemTime} {c : Connection} {e : TokenIteration}

/-- When nothing comes between them, the look at the flag, the look at the clock and the answers are
an iteration of the task alone. -/
theorem run_iteration {plan : TokenPlan} (hstage : c.stage = .looking)
    (hflag : c.perConExit = e.exit) (h : c.task.Iterates e)
    (hplan : c.task.plan toSystemTime e.now = .ok plan) :
    ∃ c', EventRun.run (step toSystemTime) c (.look :: .start e.now :: e.answers plan) = some c' ∧
      c'.task = c.task.step toSystemTime e ∧ c'.stage = .looking := by
  have hlooks : c.perConExit = false := hflag.trans h.2
  rw [TokenTask.step_of_iterates h, hplan]
  cases plan with
  | fullAuth =>
      cases hchallenge : e.authReplies.challenge with
      | error _ =>
          have hsame : c.task.fullAuth e.authReplies = c.task :=
            TokenTask.fullAuth_of_error fun _ _ => by simp [auth, hchallenge]
          refine ⟨{ c with questions := c.questions + 1 }, ?_, hsame.symm, hstage⟩
          simp [EventRun.run, TokenIteration.answers, hchallenge, step, start, h.1, hlooks, hplan,
            ask, hstage]
      | ok challenge =>
          have hreplies : (⟨.ok challenge, e.authReplies.tokens⟩ : AuthReplies) =
              e.authReplies := by
            rw [← hchallenge]
          refine ⟨{ c with
            task := c.task.fullAuth e.authReplies
            questions := c.questions + 1 + 1 }, ?_, rfl, hstage⟩
          simp [EventRun.run, TokenIteration.answers, hchallenge, step, start, h.1, hlooks, hplan,
            ask, hstage, hreplies]
  | refreshAccessToken =>
      refine ⟨{ c with
        task := c.task.refreshAccessToken e.refreshReply
        questions := c.questions + 1 }, ?_, rfl, hstage⟩
      simp [EventRun.run, TokenIteration.answers, step, start, h.1, hlooks, hplan, ask, hstage]
  | sleep =>
      refine ⟨c, ?_, rfl, hstage⟩
      have hsame : (⟨false, c.task, .looking, c.aborted, c.questions⟩ : Connection) = c := by
        rw [← hstage, ← hlooks]
      simp [EventRun.run, TokenIteration.answers, step, start, h.1, hlooks, hplan, hstage, hsame]

end Connection

namespace TokenTask

variable {t t' : TokenTask}

/-- The task has published no new token, or the last one that it got. -/
def Extends (t t' : TokenTask) : Prop :=
  t'.accessTokens = t.accessTokens ∧ t'.bearerToken = t.bearerToken ∨
    ∃ accessToken, t'.accessTokens = t.accessTokens ++ [accessToken] ∧
      t'.bearerToken = accessToken.value

/-- Storing a token publishes it. -/
theorem extends_storeAccessToken (t : TokenTask) (accessToken : Token) :
    (t.storeAccessToken accessToken).accessTokens = t.accessTokens ++ [accessToken] ∧
      (t.storeAccessToken accessToken).bearerToken = accessToken.value := by
  unfold storeAccessToken
  cases accessToken.expiresAtUtc <;> exact ⟨rfl, rfl⟩

/-- The auth workflow publishes its access token, or changes nothing. -/
theorem extends_fullAuth (t : TokenTask) (replies : AuthReplies) :
    t.Extends (t.fullAuth replies) := by
  unfold fullAuth
  split
  · exact Or.inl ⟨rfl, rfl⟩
  · rename_i accessToken refreshToken _
    have hstore := t.extends_storeAccessToken accessToken
    simp only
    split
    · exact Or.inr ⟨accessToken, hstore⟩
    · exact Or.inr ⟨accessToken, hstore⟩

/-- A refresh publishes its access token, or changes nothing. -/
theorem extends_refreshAccessToken (t : TokenTask)
    (reply : Except Unit RefreshAccessTokenResponse) : t.Extends (t.refreshAccessToken reply) := by
  unfold refreshAccessToken
  split
  · exact Or.inl ⟨rfl, rfl⟩
  · split
    · exact Or.inl ⟨rfl, rfl⟩
    · exact Or.inr ⟨_, t.extends_storeAccessToken _⟩

/-- A task gets one token at a time. -/
theorem Extends.length_le (h : t.Extends t') :
    t'.accessTokens.length ≤ t.accessTokens.length + 1 := by
  rcases h with ⟨htokens, _⟩ | ⟨_, htokens, _⟩
  · rw [htokens]
    exact Nat.le_succ _
  · rw [htokens, List.length_append]
    exact le_rfl

/-- A token that the task got is not forgotten. -/
theorem Extends.subset (h : t.Extends t') {accessToken : Token}
    (hmem : accessToken ∈ t.accessTokens) : accessToken ∈ t'.accessTokens := by
  rcases h with ⟨htokens, _⟩ | ⟨_, htokens, _⟩
  · rw [htokens]
    exact hmem
  · rw [htokens]
    exact List.mem_append_left _ hmem

/-- What is published is a token that the task got. -/
def Published (t : TokenTask) : Prop :=
  ∃ accessToken ∈ t.accessTokens, t.bearerToken = accessToken.value

/-- Getting another token keeps the published one among those the task got. -/
theorem Published.extends (hp : t.Published) (h : t.Extends t') : t'.Published := by
  rcases h with ⟨htokens, hbearer⟩ | ⟨accessToken, htokens, hbearer⟩
  · rcases hp with ⟨accessToken, hmem, heq⟩
    exact ⟨accessToken, htokens ▸ hmem, hbearer.trans heq⟩
  · refine ⟨accessToken, ?_, hbearer⟩
    rw [htokens]
    exact List.mem_append_right _ List.mem_cons_self

/-- A new task publishes the access token that it was started with. -/
theorem published_new {replies : AuthReplies} (h : TokenTask.new replies = .ok t) :
    t.Published := by
  unfold TokenTask.new at h
  split at h
  · contradiction
  · split at h
    · contradiction
    · obtain rfl := Except.ok.inj h
      exact ⟨_, List.mem_cons_self, rfl⟩

end TokenTask

namespace TokenStage

/-- The requests that an iteration may still send. -/
def questionsLeft : TokenStage → Nat
  | .planning => 2
  | .challenge => 1
  | _ => 0

/-- The access tokens that an iteration may still get. -/
def tokensLeft : TokenStage → Nat
  | .planning | .challenge | .tokens _ | .refresh => 1
  | _ => 0

/-- An iteration gets one access token at most. -/
theorem tokensLeft_le (stage : TokenStage) : stage.tokensLeft ≤ 1 := by
  cases stage <;> simp [tokensLeft]

end TokenStage

namespace Connection

/-- Requests that the task has sent, and those that its iteration may still send. -/
def questionBudget (c : Connection) : Nat := c.questions + c.stage.questionsLeft

/-- Tokens that the task has got, and the one that its iteration may still get. -/
def tokenBudget (c : Connection) : Nat := c.task.accessTokens.length + c.stage.tokensLeft

/-- Nothing is left for the task but to end its iteration. -/
structure WindsDown (c c' : Connection) : Prop where
  questions : c'.questionBudget ≤ c.questionBudget
  tokens : c'.tokenBudget ≤ c.tokenBudget

/-- A task that rests winds down. -/
theorem WindsDown.refl (c : Connection) : c.WindsDown c := ⟨le_rfl, le_rfl⟩

/-- A task winds down step by step. -/
theorem WindsDown.trans {c c' c'' : Connection} (h : c.WindsDown c') (h' : c'.WindsDown c'') :
    c.WindsDown c'' :=
  ⟨h'.questions.trans h.questions, h'.tokens.trans h.tokens⟩

/-- What a task can do to its connection.  Once its flag is set it only ends its iteration. -/
structure Moves (c c' : Connection) : Prop where
  perConExit : c'.perConExit = c.perConExit
  task : c.task.Extends c'.task
  quiet : c.perConExit = true → c.WindsDown c'

variable {toSystemTime : Timestamp → Option SystemTime} {c c' : Connection} {now : SystemTime}

/-- An iteration that has seen its flag still has everything before it. -/
theorem moves_planned (hstage : c.stage = .planning) (phase : TokenPhase) {stage : TokenStage}
    {questions : Nat} (hquestions : questions + stage.questionsLeft ≤ c.questions + 2) :
    c.Moves { c with task := { c.task with phase }, stage, questions } := by
  refine ⟨rfl, Or.inl ⟨rfl, rfl⟩, fun _ => ⟨?_, ?_⟩⟩
  · rw [questionBudget, questionBudget, hstage]
    exact hquestions
  · rw [tokenBudget, tokenBudget, hstage]
    exact Nat.add_le_add_left stage.tokensLeft_le _

/-- From the look at the clock on, an iteration sends two requests at most. -/
theorem moves_start (hstage : c.stage = .planning) : c.Moves (c.start toSystemTime now) := by
  unfold start
  split
  · exact moves_planned hstage .panicked (Nat.le_add_right _ 2)
  · exact moves_planned hstage c.task.phase le_rfl
  · exact moves_planned hstage c.task.phase (Nat.le_succ _)
  · exact moves_planned hstage c.task.phase (Nat.le_add_right _ 2)

/-- An answer that ends an iteration brings the token that was still to come. -/
theorem moves_answer {task : TokenTask} (hextends : c.task.Extends task)
    (hleft : c.stage.tokensLeft = 1) : c.Moves { c with task, stage := .looking } := by
  refine ⟨rfl, hextends, fun _ => ⟨?_, ?_⟩⟩
  · exact Nat.add_le_add_left (Nat.zero_le _) _
  · rw [tokenBudget, tokenBudget, hleft]
    exact hextends.length_le

/-- A step back to the head of the loop without an answer leaves nothing to do. -/
theorem moves_looking (c : Connection) (phase : TokenPhase) :
    c.Moves { c with task := { c.task with phase }, stage := .looking } :=
  ⟨rfl, Or.inl ⟨rfl, rfl⟩, fun _ =>
    ⟨Nat.add_le_add_left (Nat.zero_le _) _, Nat.add_le_add_left (Nat.zero_le _) _⟩⟩

/-- The effects of a step of a task. -/
theorem moves_step {e : TokenEvent} (h : c.step toSystemTime e = some c') : c.Moves c' := by
  unfold step at h
  split at h
  · contradiction
  · split at h
    · rename_i hstage
      split at h
      · obtain rfl := Option.some.inj h
        simpa only [← hstage] using moves_looking c .exited
      · rename_i hflag
        obtain rfl := Option.some.inj h
        exact ⟨rfl, Or.inl ⟨rfl, rfl⟩, fun hset => absurd hset hflag⟩
    · rename_i hstage
      exact Option.some.inj h ▸ moves_start hstage
    · exact Option.some.inj h ▸ moves_looking c c.task.phase
    · rename_i hstage
      obtain rfl := Option.some.inj h
      refine ⟨rfl, Or.inl ⟨rfl, rfl⟩, fun _ => ⟨?_, ?_⟩⟩
      · simp [questionBudget, ask, hstage, TokenStage.questionsLeft]
      · simp [tokenBudget, ask, hstage, TokenStage.tokensLeft]
    · rename_i hstage
      exact Option.some.inj h ▸ moves_answer (c.task.extends_fullAuth _) (by rw [hstage]; rfl)
    · rename_i hstage
      exact Option.some.inj h ▸
        moves_answer (c.task.extends_refreshAccessToken _) (by rw [hstage]; rfl)
    · exact Option.some.inj h ▸ moves_looking c c.task.phase
    · contradiction

/-- A task that is cancelled only ends. -/
theorem moves_cancel (h : c.cancel = some c') : c.Moves c' := by
  unfold cancel at h
  split at h
  · exact Option.some.inj h ▸ moves_looking c .exited
  · contradiction

end Connection

/-! ## Steps -/

namespace Connections

/-- What was sent is what it was, or there is one more heartbeat with the token of the connection
that is in scope. -/
def Sends (isMetadata : String → Bool) (s : Connections) (sent : List (Nat × String)) : Prop :=
  sent = s.sent ∨ ∃ c authorization, s.connections.getLast? = some c ∧
    Interceptor.call isMetadata c.task.bearerToken = .ok authorization ∧
    sent = s.sent ++ [(s.connections.length - 1, authorization)]

/-- What a step can do. -/
inductive Step (isMetadata : String → Bool) (s : Connections) : Connections → Prop
  | keeps (exit : Bool) (scope : HeartbeatScope) (sent : List (Nat × String))
      (hscope : scope = s.scope ∨ scope ≠ .connected ∧ s.scope ≠ .connected)
      (hsent : s.Sends isMetadata sent) : Step isMetadata s { s with exit, scope, sent }
  | connects {replies : AuthReplies} {task : TokenTask} (hscope : s.scope = .connecting)
      (hnew : TokenTask.new replies = .ok task) :
      Step isMetadata s
        { s with scope := .connected, connections := s.connections ++ [Connection.new task] }
  | drops (scope : HeartbeatScope) (sent : List (Nat × String)) (aborted : Bool → Bool)
      (hscope : s.scope = .connected) (hleft : scope ≠ .connected)
      (hsent : s.Sends isMetadata sent) :
      Step isMetadata s
        { s with
          scope, sent
          connections := s.modifyLast fun c => { c.drop with aborted := aborted c.aborted } }
  | task {i : Nat} {c c' : Connection} (hi : s.connections[i]? = some c) (hmoves : c.Moves c') :
      Step isMetadata s { s with connections := s.connections.set i c' }

variable {toSystemTime : Timestamp → Option SystemTime} {isMetadata : String → Bool}
  {s s' : Connections} {e : ConnectionEvent}

/-- A step of a task is a step of the machine. -/
theorem stepTask_cases {i : Nat} {f : Connection → Option Connection}
    (h : s.stepTask i f = some s') (hf : ∀ c c', f c = some c' → c.Moves c') :
    Step isMetadata s s' := by
  unfold stepTask at h
  split at h
  · rename_i c hi
    rcases Option.map_eq_some_iff.mp h with ⟨c', hc', rfl⟩
    exact Step.task hi (hf c c' hc')
  · contradiction

/-- The effects of a step. -/
theorem step_cases (h : step toSystemTime isMetadata s e = some s') : Step isMetadata s s' := by
  cases e with
  | exit => exact Option.some.inj h ▸ Step.keeps _ _ _ (Or.inl rfl) (Or.inl rfl)
  | connect =>
      simp only [step] at h
      split at h
      · rename_i hscope _
        exact Option.some.inj h ▸
          Step.keeps _ .connecting _ (Or.inr ⟨by simp, by simp [hscope]⟩) (Or.inl rfl)
      · contradiction
  | connected replies =>
      simp only [step] at h
      split at h
      · rename_i hscope
        split at h
        · rename_i task htask
          rcases Option.map_eq_some_iff.mp htask with ⟨answers, _, hnew⟩
          exact Option.some.inj h ▸ Step.connects hscope hnew
        · exact Option.some.inj h ▸
            Step.keeps _ .disconnected _ (Or.inr ⟨by simp, by simp [hscope]⟩) (Or.inl rfl)
      · contradiction
  | heartbeat invalidArgument =>
      simp only [step] at h
      split at h
      · rename_i c hscope hlast
        split at h
        · exact Option.some.inj h ▸ Step.drops .panicked _ id hscope (by simp) (Or.inl rfl)
        · rename_i authorization hcall
          have hsent : s.Sends isMetadata
              (s.sent ++ [(s.connections.length - 1, authorization)]) :=
            Or.inr ⟨c, authorization, hlast, hcall, rfl⟩
          split at h
          · exact Option.some.inj h ▸ Step.drops .panicked _ id hscope (by simp) hsent
          · exact Option.some.inj h ▸ Step.keeps _ _ _ (Or.inl rfl) hsent
      · contradiction
  | restart =>
      simp only [step] at h
      split at h
      · rename_i hscope
        exact Option.some.inj h ▸
          Step.drops .disconnected _ (fun _ => true) hscope (by simp) (Or.inl rfl)
      · contradiction
  | leave =>
      simp only [step] at h
      split at h
      · rename_i hscope _
        exact Option.some.inj h ▸ Step.drops .disconnected _ id hscope (by simp) (Or.inl rfl)
      · contradiction
  | finish =>
      simp only [step] at h
      split at h
      · rename_i hscope _
        exact Option.some.inj h ▸
          Step.keeps _ .ended _ (Or.inr ⟨by simp, by simp [hscope]⟩) (Or.inl rfl)
      · contradiction
  | task i e => exact stepTask_cases h fun _ _ hc => Connection.moves_step hc
  | cancel i =>
      refine stepTask_cases h ?_
      intro c c' hc
      split at hc
      · exact Connection.moves_cancel hc
      · contradiction

/-! ## Connections over time -/

/-- Only the last connection is modified. -/
theorem getElem?_modifyLast {i : Nat} {c : Connection} (hi : s.connections[i]? = some c)
    (f : Connection → Connection) :
    (s.modifyLast f)[i]? = some (if i + 1 = s.connections.length then f c else c) := by
  have hlt := (List.getElem?_eq_some_iff.mp hi).1
  rw [modifyLast, List.getElem?_modify, hi]
  have hiff : s.connections.length - 1 = i ↔ i + 1 = s.connections.length := by omega
  simp only [hiff]
  split <;> rfl

/-- Modifying a connection makes no new one. -/
theorem length_modifyLast (s : Connections) (f : Connection → Connection) :
    (s.modifyLast f).length = s.connections.length :=
  List.length_modify ..

/-- A connection stays where it is in the list, gets tokens one by one, and only ends its iteration
once its flag is set. -/
theorem Step.follow (h : Step isMetadata s s') {i : Nat} {c : Connection}
    (hi : s.connections[i]? = some c) :
    ∃ c', s'.connections[i]? = some c' ∧ c.task.Extends c'.task ∧
      (c.perConExit = true → c'.perConExit = true ∧ c.WindsDown c') := by
  cases h with
  | keeps => exact ⟨c, hi, Or.inl ⟨rfl, rfl⟩, fun hset => ⟨hset, .refl c⟩⟩
  | connects =>
      refine ⟨c, ?_, Or.inl ⟨rfl, rfl⟩, fun hset => ⟨hset, .refl c⟩⟩
      rw [List.getElem?_append_left (List.getElem?_eq_some_iff.mp hi).1, hi]
  | drops scope sent aborted =>
      refine ⟨_, getElem?_modifyLast hi _, ?_⟩
      split
      · exact ⟨Or.inl ⟨rfl, rfl⟩, fun _ => ⟨rfl, ⟨le_rfl, le_rfl⟩⟩⟩
      · exact ⟨Or.inl ⟨rfl, rfl⟩, fun hset => ⟨hset, .refl c⟩⟩
  | @task j old new hj hmoves =>
      by_cases hij : j = i
      · subst hij
        rw [hi, Option.some.injEq] at hj
        subst hj
        refine ⟨new, by simp [(List.getElem?_eq_some_iff.mp hi).1], hmoves.task, fun hset => ?_⟩
        exact ⟨hmoves.perConExit.trans hset, hmoves.quiet hset⟩
      · refine ⟨c, ?_, Or.inl ⟨rfl, rfl⟩, fun hset => ⟨hset, .refl c⟩⟩
        rw [List.getElem?_set_ne hij, hi]

/-- The header of a heartbeat carries a token that its own connection got. -/
def Carries (isMetadata : String → Bool) (s : Connections) (x : Nat × String) : Prop :=
  ∃ c, s.connections[x.1]? = some c ∧ ∃ accessToken ∈ c.task.accessTokens,
    accessToken.value.isEmpty = false ∧ isMetadata x.2 = true ∧ x.2 = "Bearer " ++ accessToken.value

/-- Flags, published tokens, and what was sent. -/
structure Inv (isMetadata : String → Bool) (s : Connections) : Prop where
  published : ∀ (i : Nat) (c : Connection), s.connections[i]? = some c → c.task.Published
  inScope : ∀ (i : Nat) (c : Connection), s.connections[i]? = some c →
    (c.perConExit = false ↔ s.scope = .connected ∧ i + 1 = s.connections.length)
  sent : ∀ x ∈ s.sent, s.Carries isMetadata x

namespace Inv

/-- Nothing was sent before there was a connection. -/
theorem initial (isMetadata : String → Bool) : Inv isMetadata Connections.initial :=
  ⟨fun _ _ h => absurd h (by simp [Connections.initial]),
    fun _ _ h => absurd h (by simp [Connections.initial]), fun _ h => absurd h List.not_mem_nil⟩

/-- A new heartbeat carries the token that is published. -/
theorem of_sends (h : Inv isMetadata s) {sent : List (Nat × String)}
    (hsent : s.Sends isMetadata sent) {x : Nat × String} (hx : x ∈ sent) :
    s.Carries isMetadata x := by
  rcases hsent with rfl | ⟨c, authorization, hlast, hcall, rfl⟩
  · exact h.sent x hx
  · rcases List.mem_append.mp hx with hx | hx
    · exact h.sent x hx
    · obtain rfl := List.mem_singleton.mp hx
      rw [List.getLast?_eq_getElem?] at hlast
      rcases h.published _ c hlast with ⟨accessToken, hmem, hbearer⟩
      refine ⟨c, hlast, accessToken, hmem, ?_⟩
      rw [hbearer] at hcall
      unfold Interceptor.call at hcall
      split at hcall
      · contradiction
      · rename_i hempty
        simp only at hcall
        split at hcall
        · rename_i hvalid
          obtain rfl := Except.ok.inj hcall
          exact ⟨by simpa using hempty, hvalid, rfl⟩
        · contradiction

/-- What was sent stays with the connection that it was sent over. -/
theorem sent_of_step (h : Inv isMetadata s) (hstep : Step isMetadata s s') :
    ∀ x ∈ s'.sent, s'.Carries isMetadata x := by
  intro x hx
  have hold : s.Carries isMetadata x := by
    cases hstep with
    | keeps _ _ _ _ hsent => exact h.of_sends hsent hx
    | drops _ _ _ _ _ hsent => exact h.of_sends hsent hx
    | connects | task => exact h.sent x hx
  rcases hold with ⟨c, hc, accessToken, hmem, hrest⟩
  rcases hstep.follow hc with ⟨c', hc', hextends, _⟩
  exact ⟨c', hc', accessToken, hextends.subset hmem, hrest⟩

/-- When the connection in scope is dropped, no connection has its flag unset any more. -/
theorem exists_of_dropped (h : Inv isMetadata s) {aborted : Bool → Bool} {i : Nat} {c : Connection}
    (hi : (s.modifyLast fun c => { c.drop with aborted := aborted c.aborted })[i]? = some c) :
    ∃ c₀, s.connections[i]? = some c₀ ∧ c.task = c₀.task ∧ c.perConExit = true := by
  have hlt := (List.getElem?_eq_some_iff.mp hi).1
  rw [length_modifyLast] at hlt
  have hi₀ := List.getElem?_eq_getElem hlt
  rw [getElem?_modifyLast hi₀, Option.some.injEq] at hi
  refine ⟨_, hi₀, ?_⟩
  split at hi
  · rw [← hi]
    exact ⟨rfl, rfl⟩
  · rename_i hne
    rw [← hi]
    refine ⟨rfl, ?_⟩
    by_contra hset
    exact hne ((h.inScope i _ hi₀).mp (by simpa using hset)).2

/-- The invariant is kept by every step. -/
theorem of_step (h : Inv isMetadata s) (hstep : Step isMetadata s s') : Inv isMetadata s' := by
  have hsent := h.sent_of_step hstep
  cases hstep with
  | keeps exit scope sent hscope =>
      refine ⟨h.published, ?_, hsent⟩
      intro i c hi
      rw [h.inScope i c hi]
      rcases hscope with rfl | ⟨hscope', hscope⟩
      · exact Iff.rfl
      · simp [hscope, hscope']
  | @connects replies task hscope hnew =>
      refine ⟨?_, ?_, hsent⟩
      · intro i c hi
        rcases getElem?_concat_cases hi with hi | ⟨_, rfl⟩
        · exact h.published i c hi
        · exact TokenTask.published_new hnew
      · intro i c hi
        simp only [List.length_append, List.length_singleton, true_and]
        rcases getElem?_concat_cases hi with hi | ⟨rfl, rfl⟩
        · rw [h.inScope i c hi, hscope]
          have hlt := (List.getElem?_eq_some_iff.mp hi).1
          simp only [reduceCtorEq, false_and, false_iff]
          omega
        · simp [Connection.new]
  | drops scope sent aborted hscope hleft =>
      refine ⟨?_, ?_, hsent⟩
      · intro i c hi
        rcases h.exists_of_dropped hi with ⟨c₀, hi₀, htask, _⟩
        rw [htask]
        exact h.published i c₀ hi₀
      · intro i c hi
        rcases h.exists_of_dropped hi with ⟨_, _, _, hset⟩
        simp [hset, hleft]
  | @task j old new hj hmoves =>
      have hcases : ∀ (i : Nat) (c : Connection), (s.connections.set j new)[i]? = some c →
          ∃ c₀, s.connections[i]? = some c₀ ∧ c.perConExit = c₀.perConExit ∧
            c₀.task.Extends c.task := by
        intro i c hi
        rcases getElem?_set_cases hj hi with ⟨rfl, rfl⟩ | ⟨_, hold⟩
        · exact ⟨old, hj, hmoves.perConExit, hmoves.task⟩
        · exact ⟨c, hold, rfl, Or.inl ⟨rfl, rfl⟩⟩
      refine ⟨?_, ?_, hsent⟩
      · intro i c hi
        rcases hcases i c hi with ⟨c₀, hi₀, _, hextends⟩
        exact (h.published i c₀ hi₀).extends hextends
      · intro i c hi
        rcases hcases i c hi with ⟨c₀, hi₀, hflag, _⟩
        rw [hflag, List.length_set]
        exact h.inScope i c₀ hi₀

/-- The invariant holds in every run. -/
theorem of_run {events : List ConnectionEvent}
    (h : run toSystemTime isMetadata events = some s) : Inv isMetadata s :=
  EventRun.run_invariant (I := fun _ s => Inv isMetadata s) (Inv.initial isMetadata)
    (fun _ _ _ _ hI hlast => hI.of_step (step_cases hlast)) h

end Inv

end Connections

/-- In every run, every heartbeat carries a nonempty token that the task of its own connection got
from the auth service, as a valid header: neither a token of another connection, nor something that
was never issued. -/
theorem heartbeats_carry_own_token (toSystemTime : Timestamp → Option SystemTime)
    (isMetadata : String → Bool) (events : List ConnectionEvent) (s : Connections)
    (h : Connections.run toSystemTime isMetadata events = some s) (i : Nat) (authorization : String)
    (hsent : (i, authorization) ∈ s.sent) :
    ∃ c, s.connections[i]? = some c ∧ ∃ accessToken ∈ c.task.accessTokens,
      accessToken.value.isEmpty = false ∧ isMetadata authorization = true ∧
        authorization = "Bearer " ++ accessToken.value :=
  (Connections.Inv.of_run h).sent _ hsent

/-- The thread connects and sends a heartbeat.  Its task asks for a challenge, but no shreds arrive,
the connection is given up, and a second one is made before the task of the first is cancelled. -/
def Sample.connectionEvents : List ConnectionEvent :=
  [.connect, .connected (some authReplies), .heartbeat false, .task 0 .look, .task 0 (.start 0),
    .restart, .connect, .connected (some authReplies), .cancel 0, .heartbeat false]

/-- A heartbeat of the second connection carries the token of this connection. -/
theorem heartbeats_carry_own_token_sample :
    ∃ s, Connections.run Sample.systemTime (fun _ => true) Sample.connectionEvents = some s ∧
      (1, "Bearer access") ∈ s.sent ∧
      ∃ c, s.connections[1]? = some c ∧ ∃ accessToken ∈ c.task.accessTokens,
        accessToken.value.isEmpty = false ∧ true = true ∧
          "Bearer access" = "Bearer " ++ accessToken.value :=
  ⟨_, rfl, by decide,
    heartbeats_carry_own_token Sample.systemTime (fun _ => true) Sample.connectionEvents _ rfl 1
      "Bearer access" (by decide)⟩

/-- In every run, exactly the connection in scope has its flag unset.  Whatever happens later, the
task of any other connection ends at most the iteration that it was in: it sends no request but the
two of the auth workflow, if it had seen its flag before, and gets at most one more token. -/
theorem ended_connections_wind_down (toSystemTime : Timestamp → Option SystemTime)
    (isMetadata : String → Bool) (events later : List ConnectionEvent) (s s' : Connections)
    (h : Connections.run toSystemTime isMetadata events = some s)
    (hlater : EventRun.run (Connections.step toSystemTime isMetadata) s later = some s')
    (i : Nat) (c : Connection) (hi : s.connections[i]? = some c) :
    (c.perConExit = false ↔ s.scope = .connected ∧ i + 1 = s.connections.length) ∧
    (c.perConExit = true → ∃ c', s'.connections[i]? = some c' ∧ c'.perConExit = true ∧
      c'.questions ≤ c.questions + c.stage.questionsLeft ∧
      c'.task.accessTokens.length ≤ c.task.accessTokens.length + c.stage.tokensLeft) := by
  refine ⟨(Connections.Inv.of_run h).inScope i c hi, ?_⟩
  intro hset
  have hquiet : ∃ c', s'.connections[i]? = some c' ∧ c'.perConExit = true ∧ c.WindsDown c' := by
    refine EventRun.run_invariant (I := fun _ s' => ∃ c', s'.connections[i]? = some c' ∧
      c'.perConExit = true ∧ c.WindsDown c') ⟨c, hi, hset, .refl c⟩ ?_ hlater
    rintro _ s₁ e s₂ ⟨c₁, hc₁, hset₁, hdown⟩ hstep
    rcases (Connections.step_cases hstep).follow hc₁ with ⟨c₂, hc₂, _, hquiet⟩
    rcases hquiet hset₁ with ⟨hset₂, hdown₂⟩
    exact ⟨c₂, hc₂, hset₂, hdown.trans hdown₂⟩
  rcases hquiet with ⟨c', hc', hset', hdown⟩
  exact ⟨c', hc', hset', (Nat.le_add_right _ _).trans hdown.questions,
    (Nat.le_add_right _ _).trans hdown.tokens⟩

/-- The process is told to stop after the task has seen its flag. -/
def Sample.leavingEvents : List ConnectionEvent :=
  [.connect, .connected (some authReplies), .heartbeat false, .task 0 .look, .exit, .leave]

/-- The task goes on to ask for a challenge and for tokens, and only then sees that it has ended. -/
def Sample.windingEvents : List ConnectionEvent :=
  [.task 0 (.start 0), .task 0 (.challenge authReplies.challenge),
    .task 0 (.tokens authReplies.tokens), .task 0 .look]

/-- A task that had just seen its flag unset asks twice after its connection has ended, and exits.
-/
theorem ended_connections_wind_down_sample :
    ∃ s c s' c', Connections.run Sample.systemTime (fun _ => true) Sample.leavingEvents = some s ∧
      s.connections[0]? = some c ∧ c.perConExit = true ∧ c.stage.questionsLeft = 2 ∧
      c.questions = 0 ∧
      EventRun.run (Connections.step Sample.systemTime fun _ => true) s Sample.windingEvents =
        some s' ∧
      s'.connections[0]? = some c' ∧ c'.questions = 2 ∧ c'.task.phase = .exited ∧
      ¬ (s.scope = .connected ∧ 0 + 1 = s.connections.length) ∧
      ∃ c', s'.connections[0]? = some c' ∧ c'.perConExit = true ∧
        c'.questions ≤ c.questions + c.stage.questionsLeft ∧
        c'.task.accessTokens.length ≤ c.task.accessTokens.length + c.stage.tokensLeft := by
  have hwinds := ended_connections_wind_down Sample.systemTime (fun _ => true)
    Sample.leavingEvents Sample.windingEvents _ _ rfl rfl 0 _ rfl
  exact ⟨_, _, _, _, rfl, rfl, rfl, rfl, rfl, rfl, rfl, rfl, rfl,
    fun hscope => Bool.noConfusion (hwinds.1.mpr hscope), hwinds.2 rfl⟩

end ShredstreamProxy
