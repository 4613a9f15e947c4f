import OsSecurity.Lemmas.Handler

/-!
# Unauthenticated connections

What a connection that is not authenticated does depends on what its peer sends and on nothing else: it makes no access to the
store, and its replies are the same for any store and any activity of other clients. The third failed login closes it, and a
login is never undone.
-/

namespace OsSecurity.Server

open CLib

/-- A request is an `AUTH`. -/
def Request.isAuth (r : Request) : Bool := strcmp r.cmd.bytes (bytes "AUTH") == 0

/-- The arguments of a request are an entry of `VALID_USERS`. -/
def Request.isUser (r : Request) : Bool :=
  validUsers.any (fun u => strcmp r.arg1.bytes u.1.bytes == 0 && strcmp r.arg2.bytes u.2.bytes == 0)

/-- The next turn of the connection processes an `AUTH` with the credentials of a user. -/
def Conn.passesAuth (c : Conn) : Bool := c.pending.any (fun r => r.isAuth && r.isUser)

/-- The next turn of the connection processes a failed `AUTH`. -/
def Conn.failsAuth (c : Conn) : Bool := !c.authenticated && c.pending.any (fun r => r.isAuth && !r.isUser)

/-- How many turns of the connection `i` a run has. -/
def turnsOf (i : Nat) (ts : List Turn) : Nat := ts.countP (fun t => t.client == i)

/-- How many turns of the connection `i` find it, in a run, as `p` says. -/
def countTurns (p : Conn → Bool) (i : Nat) : State → List Turn → Nat
  | _, [] => 0
  | s, t :: ts => (if t.client = i ∧ p (s.conn i) = true then 1 else 0) + countTurns p i (step s t).1 ts

namespace IsolationAux

/-! ## What a turn does to the login -/

/-- No request to the store changes the connection. -/
theorem handlePut_conn (store : Store) (c : Conn) (r : Request) : (handlePut store c r).conn = c := by
  rw [handlePut]
  split <;> rfl

theorem handleGet_conn (store : Store) (c : Conn) (r : Request) : (handleGet store c r).conn = c := by
  rw [handleGet]
  split
  · rfl
  · split <;> rfl

theorem handleDel_conn (store : Store) (c : Conn) (r : Request) : (handleDel store c r).conn = c := by
  rw [handleDel]
  split <;> rfl

/-- A request is an `AUTH` when its command compares equal. -/
theorem isAuth_iff (r : Request) : r.isAuth = true ↔ strcmp r.cmd.bytes (bytes "AUTH") = 0 := beq_iff_eq

/-- A request that is no `AUTH` leaves the login as it is. -/
theorem handleRequest_login (store : Store) (c : Conn) (keys : CharArray maxLine) (r : Request) (h : r.isAuth = false) :
    (handleRequest store c keys r).conn.authenticated = c.authenticated ∧
      (handleRequest store c keys r).conn.authAttempts = c.authAttempts := by
  have hcmd : ¬ strcmp r.cmd.bytes (bytes "AUTH") = 0 := by
    rw [← isAuth_iff, h]
    exact Bool.false_ne_true
  have hbranch := HandlerAux.handleRequest_branch store c keys r
  generalize handleRequest store c keys r = served at hbranch
  cases hbranch with
  | auth hauth => exact absurd hauth hcmd
  | put =>
    rw [handlePut_conn]
    exact ⟨rfl, rfl⟩
  | get =>
    rw [handleGet_conn]
    exact ⟨rfl, rfl⟩
  | del =>
    rw [handleDel_conn]
    exact ⟨rfl, rfl⟩
  | refused | list | quit | unknown => exact ⟨rfl, rfl⟩

/-- What the requests do to the login. -/
structure Login (c c' : Conn) (passes fails : Bool) : Prop where
  authenticated : c'.authenticated = (c.authenticated || passes)
  authAttempts : c'.authAttempts = c.authAttempts + (if fails = true then 1 else 0)
  closes : fails = true → maxAuthAttempts ≤ c.authAttempts + 1 → c'.isOpen = false

/-- The branch of `handle_client` that serves an `AUTH`, with what was checked on the way to it. -/
inductive AuthBranch (store : Store) (c : Conn) (r : Request) : Served → Prop
  | already (hauth : c.authenticated = true) : AuthBranch store c r (answer store c "ERR already_authenticated")
  | passed (hauth : c.authenticated = false) (huser : r.isUser = true) :
      AuthBranch store c r (answer store { c with authenticated := true } "OK AUTH")
  | failed (hauth : c.authenticated = false) (huser : r.isUser = false) (hmax : ¬ maxAuthAttempts ≤ c.authAttempts + 1) :
      AuthBranch store c r (answer store { c with authAttempts := c.authAttempts + 1 } "ERR AUTH invalid_credentials")
  | last (hauth : c.authenticated = false) (huser : r.isUser = false) (hmax : maxAuthAttempts ≤ c.authAttempts + 1) :
      AuthBranch store c r
        { store := store, conn := { c with authAttempts := c.authAttempts + 1, isOpen := false },
          reply := sendLine (bytes "ERR AUTH invalid_credentials") ++ sendLine (bytes "ERR too_many_attempts_closing"),
          access := none }

/-- An `AUTH` is served in one of these branches. -/
theorem handleAuth_branch (store : Store) (c : Conn) (r : Request) : AuthBranch store c r (handleAuth store c r) := by
  rw [handleAuth]
  by_cases hauth : c.authenticated = true
  · rw [if_pos hauth]
    exact .already hauth
  rw [if_neg hauth]
  rw [Bool.not_eq_true] at hauth
  by_cases huser : r.isUser = true
  · rw [← Request.isUser, if_pos huser]
    exact .passed hauth huser
  rw [← Request.isUser, if_neg huser]
  rw [Bool.not_eq_true] at huser
  dsimp only
  by_cases hmax : maxAuthAttempts ≤ c.authAttempts + 1
  · rw [if_pos hmax]
    exact .last hauth huser hmax
  · rw [if_neg hmax]
    exact .failed hauth huser hmax

/-- An `AUTH` passes with a user of the table, and fails otherwise. -/
theorem handleAuth_login (store : Store) (c : Conn) (r : Request) :
    Login c (handleAuth store c r).conn r.isUser (!c.authenticated && !r.isUser) := by
  have h := handleAuth_branch store c r
  generalize handleAuth store c r = served at h
  cases h with
  | already hauth =>
    rw [hauth]
    exact ⟨by rw [hauth]; exact hauth, rfl, fun h => absurd h Bool.false_ne_true⟩
  | passed hauth huser =>
    rw [hauth, huser]
    exact ⟨by rw [hauth]; rfl, rfl, fun h => absurd h Bool.false_ne_true⟩
  | failed hauth huser hmax =>
    rw [hauth, huser]
    exact ⟨by rw [hauth]; rfl, rfl, fun _ h => absurd h hmax⟩
  | last hauth huser =>
    rw [hauth, huser]
    exact ⟨by rw [hauth]; rfl, rfl, fun _ _ => rfl⟩

/-- A turn logs in when it passes an `AUTH`, counts a failed one, and closes the connection at the third. -/
theorem handleClient_login (store : Store) (c : Conn) (keys : CharArray maxLine) :
    Login c (handleClient store c keys).conn c.passesAuth c.failsAuth := by
  rcases HandlerAux.handleClient_cases c with ⟨line, input, hp, h⟩ | ⟨hp, c', reply, hauth, hatt, h⟩
  · rw [h, Conn.passesAuth, Conn.failsAuth, hp, Option.any_some, Option.any_some]
    generalize scanRequest line = r
    cases hr : r.isAuth with
    | true =>
      obtain ⟨h1, h2, h3⟩ := handleAuth_login store { c with input := input } r
      rw [handleRequest, if_pos ((isAuth_iff r).mp hr)]
      exact ⟨h1, h2, h3⟩
    | false =>
      obtain ⟨h1, h2⟩ := handleRequest_login store { c with input := input } keys r hr
      simp only [Bool.false_and, Bool.and_false]
      exact ⟨by rw [h1, Bool.or_false], h2, fun h => absurd h Bool.false_ne_true⟩
  · rw [h, Conn.passesAuth, Conn.failsAuth, hp, Option.any_none, Option.any_none, Bool.and_false]
    exact ⟨by rw [hauth, Bool.or_false], hatt, fun h => absurd h Bool.false_ne_true⟩

/-- Only a connection that is not authenticated fails an `AUTH`, and it does not pass it. -/
theorem of_failsAuth {c : Conn} (h : c.failsAuth = true) : c.authenticated = false ∧ c.passesAuth = false := by
  unfold Conn.failsAuth at h
  unfold Conn.passesAuth
  cases hp : c.pending with
  | none => simp [hp] at h
  | some r =>
    simp only [hp, Option.any_some, Bool.and_eq_true, Bool.not_eq_true'] at h
    obtain ⟨hc, -, hu⟩ := h
    exact ⟨hc, by rw [Option.any_some, hu, Bool.and_false]⟩

/-- A turn of a connection that is not authenticated does the same for every store, and leaves the store alone. -/
theorem handleClient_alone {c : Conn} (hc : c.authenticated = false) :
    ∃ c' reply, ∀ store keys,
      handleClient store c keys = { store := store, conn := c', reply := reply, access := none } := by
  rcases HandlerAux.handleClient_cases c with ⟨line, input, -, h⟩ | ⟨-, c', reply, -, -, h⟩
  · simp only [h]
    generalize scanRequest line = r
    unfold handleRequest
    by_cases hcmd : strcmp r.cmd.bytes (bytes "AUTH") = 0
    · simp only [if_pos hcmd, handleAuth, hc, Bool.false_eq_true, if_false]
      split
      · exact ⟨_, _, fun _ _ => rfl⟩
      · split <;> exact ⟨_, _, fun _ _ => rfl⟩
    · simp only [if_neg hcmd, hc, Bool.not_false, if_true]
      exact ⟨_, _, fun _ _ => rfl⟩
  · exact ⟨c', reply, h⟩

/-- A closed connection is not served. -/
theorem handleClient_closed {c : Conn} (hc : c.isOpen = false) (store : Store) (keys : CharArray maxLine) :
    handleClient store c keys = { store := store, conn := c, reply := [], access := none } := by
  rw [handleClient, hc]
  rfl

/-! ## A connection along a run -/

/-- A connection after a turn, on an empty store. -/
def alone (c : Conn) : Conn :=
  let served := handleClient Store.empty c (CharArray.zero maxLine)
  { served.conn with sent := c.sent ++ served.reply }

variable {i : Nat} {s : State} {t : Turn}

/-- A turn serves its own connection. -/
theorem step_conn_self (s : State) (t : Turn) :
    (step s t).1.conn t.client = { (handleClient s.store (s.conn t.client) t.keys).conn with
      sent := (s.conn t.client).sent ++ (handleClient s.store (s.conn t.client) t.keys).reply } :=
  Function.update_self ..

/-- A turn leaves the other connections alone. -/
theorem step_conn_other (s : State) (h : t.client ≠ i) : (step s t).1.conn i = s.conn i := Function.update_of_ne h.symm ..

/-- What the turns of a connection keep of it, every turn keeps. -/
theorem step_conn {Q : Conn → Prop}
    (hself : ∀ (s : State) (t : Turn), Q (s.conn t.client) → Q ((step s t).1.conn t.client)) (s : State) (t : Turn)
    (h : Q (s.conn i)) : Q ((step s t).1.conn i) := by
  by_cases hi : t.client = i
  · subst hi
    exact hself s t h
  · rw [step_conn_other s hi]
    exact h

/-- So every run keeps it. -/
theorem final_conn {Q : Conn → Prop}
    (hself : ∀ (s : State) (t : Turn), Q (s.conn t.client) → Q ((step s t).1.conn t.client)) (ts : List Turn)
    (h : Q (s.conn i)) : Q ((Runs.final step s ts).conn i) :=
  Runs.final_invariant (I := fun s : State => Q (s.conn i)) (P := fun _ => True)
    (fun s' t _ hs' => step_conn hself s' t hs') h (fun _ _ => trivial)

/-- A turn of a connection that is not authenticated is that on the empty store. -/
theorem step_alone (h : (s.conn t.client).authenticated = false) :
    (step s t).1.conn t.client = alone (s.conn t.client) ∧ (step s t).2.access = none := by
  obtain ⟨c', reply, hv⟩ := handleClient_alone h
  rw [step_conn_self, alone, step, hv, hv]
  exact ⟨rfl, rfl⟩

/-- A turn of a closed connection does nothing. -/
theorem step_closed (h : (s.conn t.client).isOpen = false) :
    (step s t).1.conn t.client = s.conn t.client ∧ (step s t).2 = ⟨[], none⟩ := by
  rw [step_conn_self, step, handleClient_closed h]
  exact ⟨by simp, rfl⟩

/-- A turn changes the login of its connection as its request says. -/
theorem step_login (s : State) (t : Turn) : Login (s.conn t.client) ((step s t).1.conn t.client)
    (s.conn t.client).passesAuth (s.conn t.client).failsAuth := by
  obtain ⟨h1, h2, h3⟩ := handleClient_login s.store (s.conn t.client) t.keys
  rw [step_conn_self]
  exact ⟨h1, h2, h3⟩

/-- A turn is one more of its own client. -/
theorem turnsOf_cons_self (t : Turn) (ts : List Turn) : turnsOf t.client (t :: ts) = turnsOf t.client ts + 1 :=
  List.countP_cons_of_pos (p := fun u : Turn => u.client == t.client) (beq_self_eq_true t.client)

/-- A turn is none of another client. -/
theorem turnsOf_cons_other (h : t.client ≠ i) (ts : List Turn) : turnsOf i (t :: ts) = turnsOf i ts :=
  List.countP_cons_of_neg (p := fun u : Turn => u.client == i) (by simpa using h)

/-- As long as no `AUTH` is passed, a connection goes its own way, and makes no access to the store. -/
theorem run_alone {ts : List Turn} (hc : (s.conn i).authenticated = false) (hp : countTurns Conn.passesAuth i s ts = 0) :
    (∀ k ≤ turnsOf i ts, (alone^[k] (s.conn i)).authenticated = false) ∧
      ∀ e ∈ Runs.trace step s ts, e.1.client = i → e.2.access = none := by
  induction ts generalizing s with
  | nil =>
    refine ⟨?_, fun e he => by nomatch he⟩
    intro k hk
    rw [Nat.le_zero.mp hk]
    exact hc
  | cons t ts ih =>
    obtain ⟨hnow, hlater⟩ := Nat.add_eq_zero_iff.mp hp
    by_cases hi : t.client = i
    · subst hi
      obtain ⟨hconn, haccess⟩ := step_alone hc
      have hpass : (s.conn t.client).passesAuth = false := by simpa using hnow
      have hc' : ((step s t).1.conn t.client).authenticated = false := by
        rw [(step_login s t).authenticated, hc, hpass, Bool.or_false]
      obtain ⟨hrun, htrace⟩ := ih hc' hlater
      constructor
      · intro k hk
        cases k with
        | zero => exact hc
        | succ k =>
          rw [turnsOf_cons_self] at hk
          rw [Function.iterate_succ_apply, ← hconn]
          exact hrun k (Nat.le_of_succ_le_succ hk)
      · intro e he hclient
        rcases List.mem_cons.mp he with rfl | he
        · exact haccess
        · exact htrace e he hclient
    · have hconn := step_conn_other s hi
      obtain ⟨hrun, htrace⟩ := ih (by rw [hconn]; exact hc) hlater
      rw [hconn] at hrun
      constructor
      · intro k hk
        rw [turnsOf_cons_other hi] at hk
        exact hrun k hk
      · intro e he hclient
        rcases List.mem_cons.mp he with rfl | he
        · exact absurd hclient hi
        · exact htrace e he hclient

/-- The connection after a run that it goes through on its own. -/
theorem final_alone {ts : List Turn} (h : ∀ k < turnsOf i ts, (alone^[k] (s.conn i)).authenticated = false) :
    (Runs.final step s ts).conn i = alone^[turnsOf i ts] (s.conn i) := by
  refine Runs.component_iterate (fun s : State => s.conn i) (fun t : Turn => t.client == i) alone
    (P := fun c => c.authenticated = false) ?_ ?_ h
  · intro s t ht hc
    obtain rfl := beq_iff_eq.mp ht
    exact (step_alone hc).1
  · intro s t ht
    exact step_conn_other s (by simpa using ht)

/-- The attempts counted are the failed `AUTH`s. -/
theorem final_authAttempts (s : State) (ts : List Turn) :
    ((Runs.final step s ts).conn i).authAttempts = (s.conn i).authAttempts + countTurns Conn.failsAuth i s ts := by
  induction ts generalizing s with
  | nil => rfl
  | cons t ts ih =>
    rw [Runs.final_cons, ih, countTurns, ← Nat.add_assoc]
    congr 1
    by_cases hi : t.client = i
    · subst hi
      rw [(step_login s t).authAttempts]
      simp
    · rw [step_conn_other s hi]
      simp [hi]

/-- Three attempts close a connection before it is authenticated. -/
def Guarded (c : Conn) : Prop :=
  c.authAttempts < maxAuthAttempts ∨ c.authAttempts = maxAuthAttempts ∧ c.isOpen = false ∧ c.authenticated = false

/-- A turn keeps this: the third failed attempt closes the connection. -/
theorem step_guarded (s : State) (t : Turn) (h : Guarded (s.conn t.client)) : Guarded ((step s t).1.conn t.client) := by
  cases hopen : (s.conn t.client).isOpen with
  | false =>
    rw [(step_closed hopen).1]
    exact h
  | true =>
    rcases h with hlt | ⟨-, hclosed, -⟩
    · obtain ⟨h1, h2, h3⟩ := step_login s t
      cases hf : (s.conn t.client).failsAuth with
      | false =>
        rw [hf] at h2
        exact .inl (by rw [h2]; exact hlt)
      | true =>
        obtain ⟨hc, hp⟩ := of_failsAuth hf
        rw [hf, if_pos rfl] at h2
        rw [hc, hp] at h1
        rcases Nat.lt_or_ge ((s.conn t.client).authAttempts + 1) maxAuthAttempts with hless | hmax
        · exact .inl (by rw [h2]; exact hless)
        · exact .inr ⟨by rw [h2]; exact Nat.le_antisymm hlt hmax, h3 hf hmax, h1⟩
    · rw [hopen] at hclosed
      nomatch hclosed

/-- A closed connection stays as it is: nothing is read, sent or asked of the store. -/
theorem run_closed (ts : List Turn) (h : (s.conn i).isOpen = false) :
    (Runs.final step s ts).conn i = s.conn i ∧ ∀ e ∈ Runs.trace step s ts, e.1.client = i → e.2 = ⟨[], none⟩ := by
  have hself : ∀ (s' : State) (t : Turn), s'.conn t.client = s.conn i → (step s' t).1.conn t.client = s.conn i := by
    intro s' t hs'
    rw [(step_closed (by rw [hs']; exact h)).1]
    exact hs'
  have hout : ∀ (s' : State) (t : Turn), True → s'.conn i = s.conn i → t.client = i → (step s' t).2 = ⟨[], none⟩ := by
    intro s' t _ hs' hi
    subst hi
    exact (step_closed (by rw [hs']; exact h)).2
  exact ⟨final_conn (Q := fun c => c = s.conn i) hself ts rfl,
    Runs.trace_invariant (Q := fun t seen => t.client = i → seen = ⟨[], none⟩)
      (fun s' t _ hs' => step_conn (Q := fun c => c = s.conn i) hself s' t hs') hout rfl (fun _ _ => trivial)⟩

/-- A login is never undone. -/
theorem final_authenticated (ts : List Turn) (h : (s.conn i).authenticated = true) :
    ((Runs.final step s ts).conn i).authenticated = true := by
  refine final_conn (Q := fun c => c.authenticated = true) ?_ ts h
  intro s' t hs'
  rw [(step_login s' t).authenticated, hs', Bool.true_or]

end IsolationAux

/-- A connection is accepted, in any state of the server and whatever its peer will send. As long as it has passed no `AUTH`, it
makes no access to the store, and it is the same, with the bytes sent on it, as after as many turns in any other run. While it
is open and not authenticated it has failed at most two; a third closes it, and nothing of what follows has an effect. Once it
is authenticated it stays so. -/
theorem unauthenticated_isolation (i : Nat) (input : Stream) (s : State) (hs : s.conn i = Conn.fresh input) (ts : List Turn) :
    (countTurns Conn.passesAuth i s ts = 0 →
      (∀ e ∈ Runs.trace step s ts, e.1.client = i → e.2.access = none) ∧
        ∀ (s₂ : State) (ts₂ : List Turn), s₂.conn i = Conn.fresh input → turnsOf i ts₂ = turnsOf i ts →
          (Runs.final step s₂ ts₂).conn i = (Runs.final step s ts).conn i) ∧
    (((Runs.final step s ts).conn i).isOpen = true → ((Runs.final step s ts).conn i).authenticated = false →
      countTurns Conn.failsAuth i s ts ≤ 2) ∧
    (3 ≤ countTurns Conn.failsAuth i s ts →
      ((Runs.final step s ts).conn i).isOpen = false ∧ ((Runs.final step s ts).conn i).authenticated = false ∧
        ∀ ts₂ : List Turn, (Runs.final step (Runs.final step s ts) ts₂).conn i = (Runs.final step s ts).conn i ∧
          ∀ e ∈ Runs.trace step (Runs.final step s ts) ts₂, e.1.client = i → e.2 = ⟨[], none⟩) ∧
    (((Runs.final step s ts).conn i).authenticated = true →
      ∀ ts₂ : List Turn, ((Runs.final step (Runs.final step s ts) ts₂).conn i).authenticated = true) := by
  have hfresh : (s.conn i).authenticated = false := by
    rw [hs]
    rfl
  have hcount : ((Runs.final step s ts).conn i).authAttempts = countTurns Conn.failsAuth i s ts := by
    rw [IsolationAux.final_authAttempts, hs]
    exact Nat.zero_add _
  have hguarded : IsolationAux.Guarded ((Runs.final step s ts).conn i) := by
    refine IsolationAux.final_conn IsolationAux.step_guarded ts (.inl ?_)
    rw [hs]
    exact Nat.succ_pos 2
  rw [IsolationAux.Guarded, hcount] at hguarded
  refine ⟨?_, ?_, ?_, ?_⟩
  · intro hp
    obtain ⟨hrun, htrace⟩ := IsolationAux.run_alone hfresh hp
    refine ⟨htrace, ?_⟩
    intro s₂ ts₂ hs₂ hturns
    have h₁ : (Runs.final step s ts).conn i = IsolationAux.alone^[turnsOf i ts] (s.conn i) :=
      IsolationAux.final_alone (fun k hk => hrun k (Nat.le_of_lt hk))
    have h₂ : (Runs.final step s₂ ts₂).conn i = IsolationAux.alone^[turnsOf i ts₂] (s₂.conn i) := by
      refine IsolationAux.final_alone ?_
      intro k hk
      rw [hs₂, ← hs]
      exact hrun k (Nat.le_of_lt (hturns ▸ hk))
    rw [h₁, h₂, hs, hs₂, hturns]
  · intro hopen _
    rcases hguarded with hlt | ⟨-, hclosed, -⟩
    · exact Nat.le_of_lt_succ hlt
    · rw [hopen] at hclosed
      nomatch hclosed
  · intro hthree
    rcases hguarded with hlt | ⟨-, hclosed, hc⟩
    · exact absurd hthree (Nat.not_le.mpr hlt)
    · exact ⟨hclosed, hc, fun ts₂ => IsolationAux.run_closed ts₂ hclosed⟩
  · intro hauth ts₂
    exact IsolationAux.final_authenticated ts₂ hauth

/-- A peer that fails three times and then has the password, beside one that logs in. -/
def guessing (i : Nat) : Stream :=
  if i = 0 then ⟨bytes "AUTH bob a\nAUTH bob b\nAUTH bob c\nAUTH bob bobpass\n", .waiting⟩
  else ⟨bytes "AUTH alice alicepass\n", .waiting⟩

/-- Four turns of the one and a turn of the other. -/
def guessingTurns : List Turn := [0, 1, 0, 0, 0].map (fun i => ⟨i, CharArray.zero maxLine⟩)

/-- Where a client guesses passwords until it is turned away. -/
theorem unauthenticated_isolation_guessing :
    let s := Runs.final step (State.init guessing) guessingTurns
    (∀ e ∈ Runs.trace step (State.init guessing) guessingTurns, e.1.client = 0 → e.2.access = none) ∧
      (s.conn 0).isOpen = false ∧ (s.conn 0).authenticated = false ∧
      ∀ ts : List Turn, ((Runs.final step s ts).conn 1).authenticated = true := by
  obtain ⟨hquiet, -, hthird, -⟩ := unauthenticated_isolation 0 (guessing 0) (State.init guessing) rfl guessingTurns
  obtain ⟨-, -, -, hstays⟩ := unauthenticated_isolation 1 (guessing 1) (State.init guessing) rfl guessingTurns
  obtain ⟨hclosed, hauth, -⟩ := hthird (by decide +kernel)
  exact ⟨(hquiet (by decide +kernel)).1, hclosed, hauth, hstays (by decide +kernel)⟩

end OsSecurity.Server
