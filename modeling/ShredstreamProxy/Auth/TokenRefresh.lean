import ShredstreamProxy.Lib.Exec
import ShredstreamProxy.Protos

/-!
# The token refresh task

The task keeps the access token of the proxy fresh.  Every iteration of its loop looks at the clock,
runs the whole auth workflow when the refresh token expires soon, asks for a new access token when
only that one does, and sleeps otherwise.  This module embeds the loop as a state machine that is
driven by the clock and by the answers of the auth service.  A panic ends the task and leaves what
was stored before.

Main definitions:

- {lit}`auth` and {lit}`TokenTask.new`: the auth workflow, and the task it starts.
- {lit}`TokenTask.plan`: what an iteration is about to do.
- {lit}`TokenTask.step`: one iteration.

Main results:

- Theorem {lit}`TokenTask.plan_eq`: what an iteration does, as far as times convert.
- Theorem {lit}`TokenTask.Sound.step`: an iteration that is served keeps the tokens sound.
- Theorem {lit}`token_refresh_iff`: when the task is atomic and does not panic.
- Theorem {lit}`bearer_published_before_panic`: a run in which it is not and does.
-/

namespace ShredstreamProxy

open Exec

/-! ## Answers of the auth service -/

/-- The tokens of a successful answer, each of which may be missing. -/
structure GenerateAuthTokensResponse where
  accessToken : Option Token
  refreshToken : Option Token

/-- The access token of a successful answer, which may be missing. -/
structure RefreshAccessTokenResponse where
  accessToken : Option Token

/-- The answers to the auth workflow: to the request for a challenge, and to the request for tokens
with the signed challenge. -/
structure AuthReplies where
  challenge : Except Unit String
  tokens : Except Unit GenerateAuthTokensResponse

inductive BlockEngineConnectionError where
  | client
  | deserialization
deriving DecidableEq

/-- The auth workflow: the access token and the refresh token. -/
def auth (replies : AuthReplies) : Except BlockEngineConnectionError (Token × Token) :=
  match replies.challenge, replies.tokens with
  | .error _, _ => .error .client
  | .ok _, .error _ => .error .client
  | .ok _, .ok tokens =>
      match tokens.accessToken, tokens.refreshToken with
      | none, _ => .error .deserialization
      | some _, none => .error .deserialization
      | some accessToken, some refreshToken => .ok (accessToken, refreshToken)

/-! ## The task -/

inductive TokenPhase where
  | running
  | exited
  | panicked
deriving DecidableEq

/-- The variables of the task, and the access tokens it has got so far, which nothing reads. -/
structure TokenTask where
  bearerToken : String
  accessTokenExpiration : Timestamp
  refreshToken : Token
  phase : TokenPhase
  accessTokens : List Token

/-- What drives one iteration: the exit flag, the clock, and what the auth service answers if it is
asked. -/
structure TokenIteration where
  exit : Bool
  now : SystemTime
  authReplies : AuthReplies
  refreshReply : Except Unit RefreshAccessTokenResponse

/-- What an iteration is about to do. -/
inductive TokenPlan where
  | fullAuth
  | refreshAccessToken
  | sleep
deriving DecidableEq

/-- Five minutes, in nanoseconds. -/
def expirySoon : Int := 5 * 60 * 1000000000

/-- The time is less than five minutes away. -/
def expiresSoon (expiry now : SystemTime) : Prop :=
  max 0 (expiry - now) < expirySoon

instance (expiry now : SystemTime) : Decidable (expiresSoon expiry now) :=
  inferInstanceAs (Decidable (_ < _))

namespace TokenTask

/-- The interceptor starts the task with the tokens of the auth workflow; only the access token has
to carry an expiry. -/
def new (replies : AuthReplies) : Except BlockEngineConnectionError TokenTask :=
  match auth replies with
  | .error e => .error e
  | .ok (accessToken, refreshToken) =>
      match accessToken.expiresAtUtc with
      | none => .error .deserialization
      | some accessTokenExpiration =>
          .ok
            { bearerToken := accessToken.value
              accessTokenExpiration := accessTokenExpiration
              refreshToken := refreshToken
              phase := .running
              accessTokens := [accessToken] }

/-- The checks at the head of the loop. -/
def plan (toSystemTime : Timestamp → Option SystemTime) (t : TokenTask) (now : SystemTime) :
    Exec TokenPlan := do
  let refreshTokenExpiresAt ← unwrap t.refreshToken.expiresAtUtc
  let refreshTokenExpiry ← unwrap (toSystemTime refreshTokenExpiresAt)
  if expiresSoon refreshTokenExpiry now then pure .fullAuth
  else
    let accessTokenExpiry ← unwrap (toSystemTime t.accessTokenExpiration)
    if expiresSoon accessTokenExpiry now then pure .refreshAccessToken else pure .sleep

/-- Store an access token.  The bearer token is published before the expiry is looked at. -/
def storeAccessToken (t : TokenTask) (accessToken : Token) : TokenTask :=
  let t :=
    { t with bearerToken := accessToken.value, accessTokens := t.accessTokens ++ [accessToken] }
  match accessToken.expiresAtUtc with
  | none => { t with phase := .panicked }
  | some accessTokenExpiration => { t with accessTokenExpiration }

/-- Run the whole auth workflow. -/
def fullAuth (t : TokenTask) (replies : AuthReplies) : TokenTask :=
  match auth replies with
  | .error _ => t
  | .ok (newAccessToken, newRefreshToken) =>
      let t := t.storeAccessToken newAccessToken
      if t.phase = .panicked then t else { t with refreshToken := newRefreshToken }

/-- Ask for a new access token. -/
def refreshAccessToken (t : TokenTask) : Except Unit RefreshAccessTokenResponse → TokenTask
  | .error _ => t
  | .ok response =>
      match response.accessToken with
      | none => { t with phase := .panicked }
      | some accessToken => t.storeAccessToken accessToken

/-- One iteration of the loop. -/
def step (toSystemTime : Timestamp → Option SystemTime) (t : TokenTask) (e : TokenIteration) :
    TokenTask :=
  if t.phase ≠ .running then t
  else if e.exit then { t with phase := .exited }
  else
    match t.plan toSystemTime e.now with
    | .error _ => { t with phase := .panicked }
    | .ok .fullAuth => t.fullAuth e.authReplies
    | .ok .refreshAccessToken => t.refreshAccessToken e.refreshReply
    | .ok .sleep => t

/-- The task after some iterations. -/
def run (toSystemTime : Timestamp → Option SystemTime) (t : TokenTask)
    (events : List TokenIteration) : TokenTask :=
  events.foldl (step toSystemTime) t

theorem run_concat (toSystemTime : Timestamp → Option SystemTime) (t : TokenTask)
    (events : List TokenIteration) (e : TokenIteration) :
    run toSystemTime t (events ++ [e]) = step toSystemTime (run toSystemTime t events) e := by
  simp [run]

/-! ## What is claimed -/

/-- The bearer token and its expiry come from one answer, the refresh token carries an expiry, and
the task has not panicked. -/
structure Sound (t : TokenTask) : Prop where
  same_reply : ∃ tok ∈ t.accessTokens,
    tok.value = t.bearerToken ∧ tok.expiresAtUtc = some t.accessTokenExpiration
  refresh_expiry : t.refreshToken.expiresAtUtc.isSome
  not_panicked : t.phase ≠ .panicked

/-- The three variables of the task are the same. -/
def SameTokens (t t' : TokenTask) : Prop :=
  t'.bearerToken = t.bearerToken ∧ t'.accessTokenExpiration = t.accessTokenExpiration ∧
    t'.refreshToken = t.refreshToken

/-- The task is in its loop and starts an iteration. -/
def Iterates (t : TokenTask) (e : TokenIteration) : Prop :=
  t.phase = .running ∧ e.exit = false

end TokenTask

/-- The auth workflow brings both tokens, and both carry an expiry. -/
def AuthReplies.Complete (replies : AuthReplies) : Prop :=
  ∃ accessToken refreshToken, auth replies = .ok (accessToken, refreshToken) ∧
    accessToken.expiresAtUtc.isSome ∧ refreshToken.expiresAtUtc.isSome

/-- The answer brings an access token that carries an expiry. -/
def RefreshComplete (reply : Except Unit RefreshAccessTokenResponse) : Prop :=
  ∃ accessToken, reply = .ok ⟨some accessToken⟩ ∧ accessToken.expiresAtUtc.isSome

open TokenTask in
/-- Along the run the tokens are sound, and an answer that is an error or lacks something leaves the
three variables as they were. -/
structure AtomicRefresh (toSystemTime : Timestamp → Option SystemTime) (t : TokenTask)
    (events : List TokenIteration) : Prop where
  sound : ∀ earlier later, events = earlier ++ later → (run toSystemTime t earlier).Sound
  full_auth : ∀ earlier e later, events = earlier ++ e :: later →
    (run toSystemTime t earlier).Iterates e →
    (run toSystemTime t earlier).plan toSystemTime e.now = .ok .fullAuth →
    ¬ e.authReplies.Complete →
    SameTokens (run toSystemTime t earlier) (run toSystemTime t (earlier ++ [e]))
  refresh_access_token : ∀ earlier e later, events = earlier ++ e :: later →
    (run toSystemTime t earlier).Iterates e →
    (run toSystemTime t earlier).plan toSystemTime e.now = .ok .refreshAccessToken →
    ¬ RefreshComplete e.refreshReply →
    SameTokens (run toSystemTime t earlier) (run toSystemTime t (earlier ++ [e]))

/-- The iteration can convert the times it looks at, and no token that it gets lacks an expiry: not
the two tokens of a full auth that brings both, and not the access token that has to be in every
answer to a refresh that is not an error. -/
def Served (toSystemTime : Timestamp → Option SystemTime) (t : TokenTask) (e : TokenIteration) :
    Prop :=
  ∀ expiresAt, t.refreshToken.expiresAtUtc = some expiresAt →
    ∃ expiry, toSystemTime expiresAt = some expiry ∧
      (expiresSoon expiry e.now → ∀ challenge accessToken refreshToken,
        e.authReplies = ⟨.ok challenge, .ok ⟨some accessToken, some refreshToken⟩⟩ →
        accessToken.expiresAtUtc.isSome ∧ refreshToken.expiresAtUtc.isSome) ∧
      (¬ expiresSoon expiry e.now → ∃ accessExpiry,
        toSystemTime t.accessTokenExpiration = some accessExpiry ∧
        (expiresSoon accessExpiry e.now → ∀ response, e.refreshReply = .ok response →
          ∃ accessToken, response.accessToken = some accessToken ∧
            accessToken.expiresAtUtc.isSome))

/-- The first refresh token carries an expiry, and every iteration of the run is served. -/
structure WellServed (toSystemTime : Timestamp → Option SystemTime) (t : TokenTask)
    (events : List TokenIteration) : Prop where
  refresh_expiry : t.refreshToken.expiresAtUtc.isSome
  served : ∀ earlier e later, events = earlier ++ e :: later →
    (TokenTask.run toSystemTime t earlier).Iterates e →
    Served toSystemTime (TokenTask.run toSystemTime t earlier) e

/-! ## One iteration -/

/-- The auth workflow succeeds when both answers do and bring both tokens. -/
theorem auth_eq_ok_iff {replies : AuthReplies} {accessToken refreshToken : Token} :
    auth replies = .ok (accessToken, refreshToken) ↔
      ∃ challenge, replies = ⟨.ok challenge, .ok ⟨some accessToken, some refreshToken⟩⟩ := by
  rcases replies with ⟨_ | challenge, _ | ⟨access, refresh⟩⟩
  · simp [auth]
  · simp [auth]
  · simp [auth]
  · cases access <;> cases refresh <;> simp [auth]

namespace TokenTask

variable {toSystemTime : Timestamp → Option SystemTime} {t : TokenTask} {e : TokenIteration}
  {expiresAt : Timestamp} {expiry : SystemTime}

/-- What an iteration does, as far as times convert. -/
theorem plan_eq {now : SystemTime} (hexpires : t.refreshToken.expiresAtUtc = some expiresAt)
    (hexpiry : toSystemTime expiresAt = some expiry) :
    t.plan toSystemTime now =
      if expiresSoon expiry now then .ok .fullAuth
      else
        match toSystemTime t.accessTokenExpiration with
        | none => .error .unwrapNone
        | some accessExpiry =>
            .ok (if expiresSoon accessExpiry now then .refreshAccessToken else .sleep) := by
  simp only [plan, hexpires, hexpiry, unwrap, ok_bind, pure_eq_ok]
  split
  · rfl
  · cases toSystemTime t.accessTokenExpiration with
    | none => rfl
    | some accessExpiry =>
        simp only [ok_bind]
        split <;> rfl

/-- An iteration does what it plans, and panics when it cannot plan. -/
theorem step_of_iterates (h : t.Iterates e) :
    step toSystemTime t e =
      match t.plan toSystemTime e.now with
      | .error _ => { t with phase := .panicked }
      | .ok .fullAuth => t.fullAuth e.authReplies
      | .ok .refreshAccessToken => t.refreshAccessToken e.refreshReply
      | .ok .sleep => t := by
  simp [step, h.1, h.2]

/-- A full auth is planned only when the refresh token expires soon. -/
theorem expiresSoon_of_plan {now : SystemTime}
    (hexpires : t.refreshToken.expiresAtUtc = some expiresAt)
    (hexpiry : toSystemTime expiresAt = some expiry)
    (hplan : t.plan toSystemTime now = .ok .fullAuth) : expiresSoon expiry now := by
  by_contra hsoon
  rw [plan_eq hexpires hexpiry, if_neg hsoon] at hplan
  split at hplan
  · contradiction
  · split at hplan <;> contradiction

/-- A refresh is planned only when the access token alone expires soon. -/
theorem expiresSoon_of_plan_refresh {now : SystemTime}
    (hexpires : t.refreshToken.expiresAtUtc = some expiresAt)
    (hexpiry : toSystemTime expiresAt = some expiry)
    (hplan : t.plan toSystemTime now = .ok .refreshAccessToken) :
    ¬ expiresSoon expiry now ∧ ∀ accessExpiry,
      toSystemTime t.accessTokenExpiration = some accessExpiry → expiresSoon accessExpiry now := by
  rw [plan_eq hexpires hexpiry] at hplan
  split at hplan
  · contradiction
  · rename_i hsoon
    refine ⟨hsoon, ?_⟩
    intro accessExpiry haccess
    by_contra hlater
    rw [haccess] at hplan
    simp [hlater] at hplan

/-- Outside of its loop, and at the exit, the task keeps its variables. -/
theorem step_of_not_iterates (h : ¬ t.Iterates e) :
    step toSystemTime t e = t ∨ step toSystemTime t e = { t with phase := .exited } := by
  unfold step
  by_cases hphase : t.phase = .running
  · have hexit : e.exit = true := by
      rw [← Bool.not_eq_false]
      exact fun hexit => h ⟨hphase, hexit⟩
    exact Or.inr (by simp [hphase, hexit])
  · exact Or.inl (by simp [hphase])

/-- An access token with an expiry is stored with it. -/
theorem storeAccessToken_of_expiry {accessToken : Token}
    (h : accessToken.expiresAtUtc = some expiresAt) :
    t.storeAccessToken accessToken =
      { t with
        bearerToken := accessToken.value
        accessTokenExpiration := expiresAt
        accessTokens := t.accessTokens ++ [accessToken] } := by
  simp [storeAccessToken, h]

/-- An access token without an expiry panics the task. -/
theorem storeAccessToken_panics {accessToken : Token} (h : accessToken.expiresAtUtc = none) :
    (t.storeAccessToken accessToken).phase = .panicked := by
  simp [storeAccessToken, h]

/-- A full auth stores both tokens. -/
theorem fullAuth_of_expiry {replies : AuthReplies} {accessToken refreshToken : Token}
    (hauth : auth replies = .ok (accessToken, refreshToken))
    (h : accessToken.expiresAtUtc = some expiresAt) (hphase : t.phase = .running) :
    t.fullAuth replies =
      { t with
        bearerToken := accessToken.value
        accessTokenExpiration := expiresAt
        refreshToken := refreshToken
        accessTokens := t.accessTokens ++ [accessToken] } := by
  simp [fullAuth, hauth, storeAccessToken_of_expiry h, hphase]

/-- A full auth panics the task when the access token lacks its expiry. -/
theorem fullAuth_panics {replies : AuthReplies} {accessToken refreshToken : Token}
    (hauth : auth replies = .ok (accessToken, refreshToken))
    (h : accessToken.expiresAtUtc = none) : (t.fullAuth replies).phase = .panicked := by
  simp [fullAuth, hauth, storeAccessToken_panics h]

/-- An error, or a missing token, leaves the task as it is. -/
theorem fullAuth_of_error {replies : AuthReplies}
    (h : ∀ accessToken refreshToken, auth replies ≠ .ok (accessToken, refreshToken)) :
    t.fullAuth replies = t := by
  unfold fullAuth
  cases hauth : auth replies with
  | error e => rfl
  | ok tokens => exact absurd hauth (h tokens.1 tokens.2)

/-- The full auth of an iteration that is served keeps the tokens sound. -/
theorem Sound.fullAuth (h : t.Sound) (hphase : t.phase = .running) {replies : AuthReplies}
    (hserved : ∀ accessToken refreshToken, auth replies = .ok (accessToken, refreshToken) →
      accessToken.expiresAtUtc.isSome ∧ refreshToken.expiresAtUtc.isSome) :
    (t.fullAuth replies).Sound := by
  by_cases hauth : ∃ accessToken refreshToken, auth replies = .ok (accessToken, refreshToken)
  · rcases hauth with ⟨accessToken, refreshToken, hauth⟩
    rcases hserved _ _ hauth with ⟨haccess, hrefresh⟩
    rcases Option.isSome_iff_exists.mp haccess with ⟨expiresAt, hexpires⟩
    rw [fullAuth_of_expiry hauth hexpires hphase]
    exact ⟨⟨accessToken, by simp, rfl, hexpires⟩, hrefresh, h.not_panicked⟩
  · rw [fullAuth_of_error fun accessToken refreshToken hok => hauth ⟨_, _, hok⟩]
    exact h

/-- A refresh that is served keeps the tokens sound. -/
theorem Sound.refreshAccessToken (h : t.Sound)
    {reply : Except Unit RefreshAccessTokenResponse}
    (hserved : ∀ response, reply = .ok response → ∃ accessToken,
      response.accessToken = some accessToken ∧ accessToken.expiresAtUtc.isSome) :
    (t.refreshAccessToken reply).Sound := by
  cases reply with
  | error e => exact h
  | ok response =>
      rcases hserved response rfl with ⟨accessToken, hresponse, hsome⟩
      rcases Option.isSome_iff_exists.mp hsome with ⟨expiresAt, hexpires⟩
      simp only [TokenTask.refreshAccessToken, hresponse, storeAccessToken_of_expiry hexpires]
      exact ⟨⟨accessToken, by simp, rfl, hexpires⟩, h.refresh_expiry, h.not_panicked⟩

/-- A full auth that is served is an error, lacks a token, or is complete. -/
theorem Sound.complete_auth (h : t.Sound) (hserved : Served toSystemTime t e)
    (hplan : t.plan toSystemTime e.now = .ok .fullAuth) {accessToken refreshToken : Token}
    (hauth : auth e.authReplies = .ok (accessToken, refreshToken)) : e.authReplies.Complete := by
  rcases Option.isSome_iff_exists.mp h.refresh_expiry with ⟨expiresAt, hexpires⟩
  rcases hserved expiresAt hexpires with ⟨expiry, hexpiry, hfull, _⟩
  rcases auth_eq_ok_iff.mp hauth with ⟨challenge, hreplies⟩
  exact ⟨accessToken, refreshToken, hauth,
    hfull (expiresSoon_of_plan hexpires hexpiry hplan) challenge _ _ hreplies⟩

/-- A refresh that is served and no error is complete. -/
theorem Sound.complete_refresh (h : t.Sound) (hserved : Served toSystemTime t e)
    (hplan : t.plan toSystemTime e.now = .ok .refreshAccessToken)
    {response : RefreshAccessTokenResponse} (hreply : e.refreshReply = .ok response) :
    RefreshComplete e.refreshReply := by
  rcases Option.isSome_iff_exists.mp h.refresh_expiry with ⟨expiresAt, hexpires⟩
  rcases hserved expiresAt hexpires with ⟨expiry, hexpiry, _, hrefresh⟩
  rcases expiresSoon_of_plan_refresh hexpires hexpiry hplan with ⟨hsoon, hsoon'⟩
  rcases hrefresh hsoon with ⟨accessExpiry, haccess, hresponse⟩
  rcases hresponse (hsoon' accessExpiry haccess) response hreply with
    ⟨accessToken, htoken, hsome⟩
  refine ⟨accessToken, ?_, hsome⟩
  rw [hreply, ← htoken]

/-- An iteration that is served keeps the tokens sound. -/
theorem Sound.step (h : t.Sound) (hserved : t.Iterates e → Served toSystemTime t e) :
    (TokenTask.step toSystemTime t e).Sound := by
  by_cases hiterates : t.Iterates e
  · rcases Option.isSome_iff_exists.mp h.refresh_expiry with ⟨expiresAt, hexpires⟩
    rcases hserved hiterates expiresAt hexpires with ⟨expiry, hexpiry, hauth, haccess⟩
    rw [step_of_iterates hiterates, plan_eq hexpires hexpiry]
    by_cases hsoon : expiresSoon expiry e.now
    · rw [if_pos hsoon]
      refine h.fullAuth hiterates.1 ?_
      intro accessToken refreshToken hok
      rcases auth_eq_ok_iff.mp hok with ⟨challenge, hreplies⟩
      exact hauth hsoon challenge accessToken refreshToken hreplies
    · rcases haccess hsoon with ⟨accessExpiry, haccessExpiry, hrefresh⟩
      rw [if_neg hsoon, haccessExpiry]
      by_cases hsoon' : expiresSoon accessExpiry e.now
      · simp only [if_pos hsoon']
        exact h.refreshAccessToken (hrefresh hsoon')
      · simp only [if_neg hsoon']
        exact h
  · rcases @step_of_not_iterates toSystemTime t e hiterates with hsame | hexit
    · rw [hsame]
      exact h
    · rw [hexit]
      exact ⟨h.same_reply, h.refresh_expiry, by simp⟩

/-- If the tokens are sound after an iteration, it was served. -/
theorem Sound.served (hiterates : t.Iterates e)
    (hnext : (TokenTask.step toSystemTime t e).Sound) : Served toSystemTime t e := by
  intro expiresAt hexpires
  rw [step_of_iterates hiterates] at hnext
  cases hexpiry : toSystemTime expiresAt with
  | none =>
      have hplan : t.plan toSystemTime e.now = .error .unwrapNone := by
        simp [plan, hexpires, hexpiry, unwrap]
      rw [hplan] at hnext
      exact absurd rfl hnext.not_panicked
  | some expiry =>
      rw [plan_eq hexpires hexpiry] at hnext
      refine ⟨expiry, rfl, ?_, ?_⟩
      · intro hsoon challenge accessToken refreshToken hreplies
        rw [if_pos hsoon] at hnext
        have hauth := auth_eq_ok_iff.mpr ⟨challenge, hreplies⟩
        cases haccess : accessToken.expiresAtUtc with
        | none => exact absurd (fullAuth_panics hauth haccess) hnext.not_panicked
        | some at' =>
            have hrefresh := hnext.refresh_expiry
            simp only [fullAuth_of_expiry hauth haccess hiterates.1] at hrefresh
            exact ⟨rfl, hrefresh⟩
      · intro hsoon
        rw [if_neg hsoon] at hnext
        cases haccess : toSystemTime t.accessTokenExpiration with
        | none =>
            rw [haccess] at hnext
            exact absurd rfl hnext.not_panicked
        | some accessExpiry =>
            refine ⟨accessExpiry, rfl, ?_⟩
            intro hsoon' response hreply
            simp only [haccess, if_pos hsoon', hreply, TokenTask.refreshAccessToken] at hnext
            cases htoken : response.accessToken with
            | none =>
                rw [htoken] at hnext
                exact absurd rfl hnext.not_panicked
            | some accessToken =>
                rw [htoken] at hnext
                refine ⟨accessToken, rfl, ?_⟩
                cases hsome : accessToken.expiresAtUtc with
                | none => exact absurd (storeAccessToken_panics hsome) hnext.not_panicked
                | some at' => rfl

/-- The task that the interceptor starts: its bearer token and expiry come from one answer. -/
theorem sound_of_new {replies : AuthReplies} (h : new replies = .ok t)
    (hexpiry : t.refreshToken.expiresAtUtc.isSome) : t.Sound := by
  unfold new at h
  split at h
  · contradiction
  · split at h
    · contradiction
    · rename_i accessToken refreshToken _ _ expiresAt hexpires
      obtain rfl := Except.ok.inj h
      exact ⟨⟨accessToken, by simp, rfl, hexpires⟩, hexpiry, by simp⟩

end TokenTask

/-! ## Runs -/

open TokenTask

variable {toSystemTime : Timestamp → Option SystemTime} {t : TokenTask}
  {events : List TokenIteration}

/-- While every iteration is served, the tokens stay sound. -/
theorem WellServed.sound (h : WellServed toSystemTime t events) (hstart : t.Sound) :
    ∀ earlier later, events = earlier ++ later → (run toSystemTime t earlier).Sound := by
  intro earlier
  induction earlier using List.reverseRecOn with
  | nil => exact fun _ _ => hstart
  | append_singleton earlier e ih =>
      intro later hevents
      have hsplit : events = earlier ++ e :: later := by simpa using hevents
      rw [run_concat]
      exact (ih _ hsplit).step (h.served earlier e later hsplit)

/-- From every state that the interceptor accepts and in every run, the refresh is atomic and the
task does not panic if and only if the first refresh token carries an expiry and every iteration is
served. -/
theorem token_refresh_iff (toSystemTime : Timestamp → Option SystemTime) (replies : AuthReplies)
    (t : TokenTask) (hnew : new replies = .ok t) (events : List TokenIteration) :
    AtomicRefresh toSystemTime t events ↔ WellServed toSystemTime t events := by
  constructor
  · intro h
    refine ⟨(h.sound [] events rfl).refresh_expiry, ?_⟩
    intro earlier e later hevents hiterates
    have hnext := h.sound (earlier ++ [e]) later (by simp [hevents])
    rw [run_concat] at hnext
    exact Sound.served hiterates hnext
  · intro h
    have hsound := h.sound (sound_of_new hnew h.refresh_expiry)
    refine ⟨hsound, ?_, ?_⟩
    · intro earlier e later hevents hiterates hplan hincomplete
      have hserved := h.served earlier e later hevents hiterates
      rw [run_concat, step_of_iterates hiterates, hplan]
      dsimp only
      rw [fullAuth_of_error]
      · exact ⟨rfl, rfl, rfl⟩
      · intro accessToken refreshToken hok
        exact hincomplete ((hsound earlier _ hevents).complete_auth hserved hplan hok)
    · intro earlier e later hevents hiterates hplan hincomplete
      have hserved := h.served earlier e later hevents hiterates
      rw [run_concat, step_of_iterates hiterates, hplan]
      cases hreply : e.refreshReply with
      | error _ => exact ⟨rfl, rfl, rfl⟩
      | ok response =>
          have hcomplete := (hsound earlier _ hevents).complete_refresh hserved hplan hreply
          exact absurd hcomplete hincomplete

/-! ## A task and its answers -/

namespace Sample

/-- Two tokens that expire at the epoch. -/
def authReplies : AuthReplies where
  challenge := .ok "challenge"
  tokens := .ok ⟨some ⟨"access", some ⟨0, 0⟩⟩, some ⟨"refresh", some ⟨0, 0⟩⟩⟩

/-- A new access token that lacks its expiry. -/
def incompleteReplies : AuthReplies where
  challenge := .ok "challenge"
  tokens := .ok ⟨some ⟨"new access", none⟩, some ⟨"new refresh", some ⟨0, 0⟩⟩⟩

def tokenTask : TokenTask where
  bearerToken := "access"
  accessTokenExpiration := ⟨0, 0⟩
  refreshToken := ⟨"refresh", some ⟨0, 0⟩⟩
  phase := .running
  accessTokens := [⟨"access", some ⟨0, 0⟩⟩]

def iteration (replies : AuthReplies) : TokenIteration where
  exit := false
  now := 0
  authReplies := replies
  refreshReply := .error ()

/-- A full auth that brings a refresh token for a day, and then a refresh of the access token. -/
def twoIterations : List TokenIteration :=
  [ { iteration authReplies with
      authReplies :=
        ⟨.ok "challenge",
          .ok ⟨some ⟨"first access", some ⟨0, 0⟩⟩, some ⟨"refresh", some ⟨86400, 0⟩⟩⟩⟩ },
    { iteration authReplies with
      refreshReply := .ok ⟨some ⟨"second access", some ⟨0, 0⟩⟩⟩ } ]

/-- The conversion of times near the epoch. -/
def systemTime (timestamp : Timestamp) : Option SystemTime :=
  some (timestamp.seconds.toInt * 1000000000 + timestamp.nanos.toInt)

end Sample

/-- The run of two iterations is served. -/
theorem Sample.wellServed :
    WellServed Sample.systemTime Sample.tokenTask Sample.twoIterations := by
  refine ⟨rfl, ?_⟩
  rintro (_ | ⟨a, _ | ⟨b, earlier⟩⟩) e later hevents _
  · -- the full auth brings two tokens with their expiries
    obtain rfl := (List.cons.inj hevents).1
    intro expiresAt hexpires
    obtain rfl := Option.some.inj hexpires
    refine ⟨0, rfl, ?_, fun hlater => absurd (by decide) hlater⟩
    rintro _ challenge accessToken refreshToken hreplies
    injection hreplies with _ htokens
    obtain ⟨rfl, rfl⟩ : _ = accessToken ∧ _ = refreshToken := by simpa using htokens
    exact ⟨rfl, rfl⟩
  · -- the refresh token is good for a day, and the answer to the refresh brings an access token
    obtain ⟨rfl, hrest⟩ := List.cons.inj hevents
    obtain rfl := (List.cons.inj hrest).1
    intro expiresAt hexpires
    obtain rfl := Option.some.inj hexpires
    refine ⟨86400000000000, rfl, fun hsoon => absurd hsoon (by decide), ?_⟩
    intro _
    refine ⟨0, rfl, ?_⟩
    rintro _ response hresponse
    obtain rfl := Except.ok.inj hresponse
    exact ⟨_, rfl, rfl⟩
  · simp [Sample.twoIterations] at hevents

/-- A full auth and then a refresh of the access token, both served: the refresh is atomic, and the
bearer token is that of the last answer. -/
theorem token_refresh_iff_sample :
    new Sample.authReplies = .ok Sample.tokenTask ∧
      WellServed Sample.systemTime Sample.tokenTask Sample.twoIterations ∧
      AtomicRefresh Sample.systemTime Sample.tokenTask Sample.twoIterations ∧
      (run Sample.systemTime Sample.tokenTask Sample.twoIterations).bearerToken =
        "second access" := by
  have hiff := token_refresh_iff Sample.systemTime Sample.authReplies Sample.tokenTask rfl
    Sample.twoIterations
  exact ⟨rfl, Sample.wellServed, hiff.mpr Sample.wellServed, by decide⟩

/-- An access token without expiry is published, and then the task panics. -/
theorem bearer_published_before_panic :
    new Sample.authReplies = .ok Sample.tokenTask ∧
      (run Sample.systemTime Sample.tokenTask
        [Sample.iteration Sample.incompleteReplies]).bearerToken = "new access" ∧
      (run Sample.systemTime Sample.tokenTask
        [Sample.iteration Sample.incompleteReplies]).phase = .panicked ∧
      ¬ AtomicRefresh Sample.systemTime Sample.tokenTask
        [Sample.iteration Sample.incompleteReplies] := by
  have hpanics : (run Sample.systemTime Sample.tokenTask
      [Sample.iteration Sample.incompleteReplies]).phase = .panicked := by decide
  refine ⟨rfl, by decide, hpanics, ?_⟩
  intro h
  exact (h.sound _ [] (List.append_nil _).symm).not_panicked hpanics

end ShredstreamProxy
