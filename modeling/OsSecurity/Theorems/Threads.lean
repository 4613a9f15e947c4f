import OsSecurity.Lemmas.Threads

/-!
# The threads of the server behave like turns

The threads take their steps in any order, slot by slot, and what comes of it is what comes of turns that are taken one after the
other: `store_lock` makes each access to the store one step, and everything else that a thread does is its own.
-/

namespace OsSecurity.Server

open CLib CriticalSection Interleaving ThreadsAux

/-- The connection of a thread, with what it has sent so far. -/
def Threads.conn (s : Threads) (i : Nat) : Conn :=
  match s.thread i with
  | .outside h => h.conn
  | .inside p => p.1

/-- The thread has not begun, or it is at the head of its loop with nothing to send. -/
def Handler.Resting (h : Handler) : Prop := h.pc = .backlog ∨ h.pc = .loop []

def Threads.AtRest (s : Threads) (i : Nat) : Prop := ∃ h, s.thread i = .outside h ∧ h.Resting

/-- What a thread has still to send for the line that it has received: the lines that it has at hand, or the one that the store
function comes to. -/
def Threads.pending (s : Threads) (i : Nat) : List UInt8 :=
  match s.thread i with
  | .outside h =>
    match h.pc with
    | .loop lines => lines.flatten
    | _ => []
  | .inside p => (s.shared.finish p.2).2.line

/-- What can be seen of the threads agrees with a state between turns: the turns have sent what each thread has sent and what it has
at hand, a connection at rest is as the turns left it, and so is the store while nobody has the lock. -/
structure Threads.Shows (s : Threads) (S : State) : Prop where
  store : s.owner = none → s.shared = S.store
  sent : ∀ i, (S.conn i).sent = (s.conn i).sent ++ s.pending i
  rest : ∀ i, s.AtRest i → s.conn i = S.conn i

namespace ThreadsAux

/-! ## Threads whose accesses are single steps -/

abbrev AtomicThreads := Atomic Nat Store Handler

abbrev Leads (a a' : AtomicThreads) : Prop := Interleaving.Reachable (atomicStep threadProgram threadFinish) a a'

/-- The connection between turns that a thread stands for: what it has still to send is sent, and what it has received before it takes
the lock is not received yet. -/
def Agrees (h : Handler) (c : Conn) : Prop :=
  match h.pc with
  | .backlog => c = h.conn
  | .loop lines => c = { h.conn with sent := h.conn.sent ++ lines.flatten }
  | .lock _ => c.isOpen = true ∧ ∃ n, recvLine maxLine c.input = some n ∧ threadReceived c n = h

structure Relates (a : AtomicThreads) (S : State) : Prop where
  store : a.shared = S.store
  conn : ∀ i, Agrees (a.thread i) (S.conn i)

variable {a a' : AtomicThreads} {S : State} {i : Nat} {keys : CharArray maxLine} {c : Conn} {h : Handler} {n : Received}

/-- A turn of an open connection for which a line has come. -/
theorem step_received (hopen : (S.conn i).isOpen = true) (hn : recvLine maxLine (S.conn i).input = some n)
    (hh : threadReceived (S.conn i) n = h) :
    (step S ⟨i, keys⟩).1 =
      { store := (h.serve S.store keys).store
        conn := Function.update S.conn i
          { (h.serve S.store keys).conn with sent := (S.conn i).sent ++ (h.serve S.store keys).reply } } := by
  simp only [step, handleClient, hopen, if_true, hn, handleReceived_eq _ keys, hh]

/-- A step of a thread that changes nothing of the other threads. -/
theorem relates_update (hR : Relates a S) {x store : Store} {c' : Conn} (hstore : x = store) (hagrees : Agrees h c') :
    Relates ⟨x, Function.update a.thread i h⟩ { store := store, conn := Function.update S.conn i c' } := by
  refine ⟨hstore, fun j => ?_⟩
  by_cases hj : j = i
  · subst hj
    simpa only [Function.update_self] using hagrees
  · simpa only [Function.update_of_ne hj] using hR.conn j

/-- A step of a thread that no turn shows. -/
theorem relates_silent (hR : Relates a S) (hagrees : Agrees h (S.conn i)) :
    Relates ⟨a.shared, Function.update a.thread i h⟩ S := by
  have hsame := relates_update (i := i) (x := a.shared) hR hR.store hagrees
  rwa [Function.update_eq_self] at hsame

theorem conn_of_loop (hR : Relates a S) (hthread : a.thread i = ⟨c, .loop []⟩) : S.conn i = c := by
  have hagrees := hR.conn i
  rw [hthread] at hagrees
  simpa [Agrees] using hagrees

/-- A thread whose connection is accepted. -/
theorem relates_accepted (hR : Relates a S) (hthread : a.thread i = ⟨c, .backlog⟩) :
    Relates ⟨a.shared, Function.update a.thread i ⟨c, .loop []⟩⟩ S := by
  have hagrees := hR.conn i
  rw [hthread] at hagrees
  have hconn : S.conn i = c := hagrees
  exact relates_silent hR (by simp [Agrees, hconn])

/-- A thread that sends the next line that it has at hand. -/
theorem relates_sends (hR : Relates a S) {line : List UInt8} {lines : List (List UInt8)}
    (hthread : a.thread i = ⟨c, .loop (line :: lines)⟩) :
    Relates ⟨a.shared, Function.update a.thread i ⟨{ c with sent := c.sent ++ line }, .loop lines⟩⟩ S := by
  have hagrees := hR.conn i
  rw [hthread] at hagrees
  have hconn : S.conn i = _ := hagrees
  exact relates_silent hR (by simp [Agrees, hconn])

/-- A thread that has received a line, and will take the lock. -/
theorem relates_asks (hR : Relates a S) (hthread : a.thread i = ⟨c, .loop []⟩) (hopen : c.isOpen = true)
    (hn : recvLine maxLine c.input = some n) {access : StoreAccess} (hpc : (threadReceived c n).pc = .lock access) :
    Relates ⟨a.shared, Function.update a.thread i (threadReceived c n)⟩ S := by
  refine relates_silent hR ?_
  simp [Agrees, hpc, conn_of_loop hR hthread, hopen, hn]

/-- One that has received a line and answers by itself: this is its turn. -/
theorem relates_answers (hR : Relates a S) (hthread : a.thread i = ⟨c, .loop []⟩) (hopen : c.isOpen = true)
    (hn : recvLine maxLine c.input = some n) {lines : List (List UInt8)} (hpc : (threadReceived c n).pc = .loop lines)
    (keys : CharArray maxLine) :
    Relates ⟨a.shared, Function.update a.thread i (threadReceived c n)⟩ (step S ⟨i, keys⟩).1 := by
  obtain rfl := conn_of_loop hR hthread
  rw [step_received hopen hn rfl]
  refine relates_update hR (by rw [Handler.serve, hpc]; exact hR.store) ?_
  simp [Agrees, Handler.serve, hpc, (keeps_received (S.conn i) n).sent]

/-- One that takes the lock: this is its turn. -/
theorem relates_access (hR : Relates a S) {access : StoreAccess} (hthread : a.thread i = ⟨c, .lock access⟩)
    (keys : CharArray maxLine) :
    Relates ⟨(threadFinish a.shared (c, access.start keys)).1,
      Function.update a.thread i (threadFinish a.shared (c, access.start keys)).2⟩ (step S ⟨i, keys⟩).1 := by
  have hagrees := hR.conn i
  rw [hthread] at hagrees
  obtain ⟨hopen, n, hn, hreceived⟩ := hagrees
  have hkeeps := keeps_received (S.conn i) n
  rw [hreceived] at hkeeps
  rw [step_received hopen hn hreceived]
  simp only [threadFinish, finish_start]
  refine relates_update hR (by rw [Handler.serve, hR.store]) ?_
  simp only [Agrees, Handler.serve, hR.store, List.flatten_singleton]
  rw [← show c.sent = (S.conn i).sent from hkeeps.sent]

/-- A step of a thread is a turn, or no turn shows it. -/
theorem relates_step (hR : Relates a S) (hstep : atomicStep threadProgram threadFinish a (i, keys) = some a') :
    Relates a' S ∨ Relates a' (step S ⟨i, keys⟩).1 := by
  obtain ⟨⟨c, pc⟩, hthread⟩ : ∃ h, a.thread i = h := ⟨_, rfl⟩
  simp only [atomicStep, hthread, threadProgram, threadNext] at hstep
  cases pc with
  | backlog =>
    obtain rfl := Option.some.inj hstep
    exact .inl (relates_accepted hR hthread)
  | lock access =>
    obtain rfl := Option.some.inj hstep
    exact .inr (relates_access hR hthread keys)
  | loop lines =>
    cases lines with
    | cons line lines =>
      obtain rfl := Option.some.inj hstep
      exact .inl (relates_sends hR hthread)
    | nil =>
      dsimp only at hstep
      cases hopen : c.isOpen with
      | false => simp [hopen] at hstep
      | true =>
        cases hn : recvLine maxLine c.input with
        | none => simp [hopen, hn] at hstep
        | some n =>
          simp only [hopen, hn, if_true, Option.map_some, Option.some.injEq] at hstep
          subst hstep
          cases hpc : (threadReceived c n).pc with
          | backlog => exact absurd hpc (keeps_received c n).accepted
          | lock access => exact .inl (relates_asks hR hthread hopen hn hpc)
          | loop lines => exact .inr (relates_answers hR hthread hopen hn hpc keys)

/-! ## Turns as a system in which every action is possible -/

def turnStep (S : State) (t : Turn) : Option State := some (step S t).1

theorem run_turns (S : State) (ts : List Turn) : run turnStep S ts = some (Runs.final step S ts) := by
  induction ts generalizing S with
  | nil => rfl
  | cons t ts ih => rw [run_cons (show turnStep S t = some (step S t).1 from rfl), ih, Runs.final_cons]

/-- A run of the threads is a run of turns. -/
theorem relates_reachable (hR : Relates a S) (h : Leads a a') :
    ∃ ts, Relates a' (Runs.final step S ts) := by
  have hlift : ∀ S a (b : Nat × CharArray maxLine) a', Relates a S → atomicStep threadProgram threadFinish a b = some a' →
      ∃ S', Interleaving.Reachable turnStep S S' ∧ Relates a' S' := by
    intro S a b a' hR hstep
    rcases relates_step hR hstep with hsame | hturn
    · exact ⟨S, .refl S, hsame⟩
    · exact ⟨_, .of_step (a := ⟨b.1, b.2⟩) rfl, hturn⟩
  obtain ⟨S', ⟨ts, hts⟩, hR'⟩ := Interleaving.Reachable.lift (R := fun S a => Relates a S) hlift hR h
  rw [run_turns] at hts
  obtain rfl := Option.some.inj hts
  exact ⟨ts, hR'⟩

/-! ## What is seen -/

variable {s s' : Threads}

theorem conn_outside (h' : s.thread i = .outside h) : s.conn i = h.conn := by
  rw [Threads.conn, h']

/-- The turns show what the threads show. -/
theorem shows_of_relates (hR : Relates (s.abs threadFinish) S) : s.Shows S := by
  refine ⟨fun hfree => ?_, fun i => ?_, fun i hrest => ?_⟩
  · rw [← hR.store, abs_shared_of_free hfree]
  · have hagrees := hR.conn i
    cases hplace : s.thread i with
    | inside p =>
      rw [abs_thread_inside hplace] at hagrees
      have hconn : S.conn i = _ := hagrees
      simp [Threads.conn, Threads.pending, hplace, hconn, threadFinish]
    | outside h =>
      rw [abs_thread_outside hplace] at hagrees
      rw [conn_outside hplace]
      obtain ⟨c, pc⟩ := h
      cases pc with
      | backlog =>
        have hconn : S.conn i = c := hagrees
        simp [Threads.pending, hplace, hconn]
      | loop lines =>
        have hconn : S.conn i = _ := hagrees
        simp [Threads.pending, hplace, hconn]
      | lock access =>
        obtain ⟨-, n, -, hreceived⟩ := hagrees
        have hsent := (keeps_received (S.conn i) n).sent
        rw [hreceived] at hsent
        simp [Threads.pending, hplace, show c.sent = (S.conn i).sent from hsent]
  · obtain ⟨⟨c, pc⟩, hplace, hpc⟩ := hrest
    have hagrees := hR.conn i
    rw [abs_thread_outside hplace] at hagrees
    rw [conn_outside hplace]
    rcases hpc with rfl | rfl
    · exact hagrees.symm
    · simpa [Agrees] using hagrees.symm

theorem exclusive_init (inputs : Nat → Stream) : Exclusive (Threads.init inputs) := by
  intro i
  simp [Threads.init]

theorem relates_init (inputs : Nat → Stream) : Relates ((Threads.init inputs).abs threadFinish) (State.init inputs) :=
  ⟨rfl, fun _ => rfl⟩

/-! ## A turn taken by its thread -/

theorem resting_others {f : Nat → Handler} (hothers : ∀ j, j ≠ i → (f j).Resting) (h : Handler) :
    ∀ j, j ≠ i → (Function.update f i h j).Resting := by
  intro j hj
  rw [Function.update_of_ne hj]
  exact hothers j hj

/-- A thread can send all that it has at hand. -/
theorem exists_sent (hR : Relates a S) (hothers : ∀ j, j ≠ i → (a.thread j).Resting) {lines : List (List UInt8)}
    (hpc : (a.thread i).pc = .loop lines) (keys : CharArray maxLine) :
    ∃ a', Leads a a' ∧ Relates a' S ∧ ∀ j, (a'.thread j).Resting := by
  induction lines generalizing a with
  | nil =>
    refine ⟨a, .refl a, hR, fun j => ?_⟩
    by_cases hj : j = i
    · exact hj ▸ .inr hpc
    · exact hothers j hj
  | cons line lines ih =>
    obtain ⟨⟨c, pc⟩, hthread⟩ : ∃ h, a.thread i = h := ⟨_, rfl⟩
    obtain rfl : pc = .loop (line :: lines) := by rw [← hpc, hthread]
    have hstep : atomicStep threadProgram threadFinish a (i, keys) =
        some ⟨a.shared, Function.update a.thread i ⟨{ c with sent := c.sent ++ line }, .loop lines⟩⟩ := by
      simp only [atomicStep, hthread, threadProgram, threadNext]
    obtain ⟨a', hreach, hR', hrest⟩ := ih (relates_sends hR hthread)
      (resting_others hothers _) (by simp only [Function.update_self])
    exact ⟨a', (Interleaving.Reachable.of_step hstep).trans hreach, hR', hrest⟩

/-- A turn of a connection that is closed or waits for bytes. -/
theorem step_idle (h : (S.conn i).isOpen = true → recvLine maxLine (S.conn i).input = none) : (step S ⟨i, keys⟩).1 = S := by
  have hclient : handleClient S.store (S.conn i) keys = { store := S.store, conn := S.conn i, reply := [], access := none } := by
    rw [handleClient]
    split
    · rename_i hopen
      rw [h hopen]
    · rfl
  simp [step, hclient]

/-- A thread at the head of its loop can do its turn. -/
theorem exists_turn_of_loop (hR : Relates a S) (hothers : ∀ j, j ≠ i → (a.thread j).Resting) (hthread : a.thread i = ⟨c, .loop []⟩)
    (keys : CharArray maxLine) :
    ∃ a', Leads a a' ∧ Relates a' (step S ⟨i, keys⟩).1 ∧ ∀ j, (a'.thread j).Resting := by
  have hconn := conn_of_loop hR hthread
  by_cases hline : ∃ n, c.isOpen = true ∧ recvLine maxLine c.input = some n
  · obtain ⟨n, hopen, hn⟩ := hline
    have hreceive : atomicStep threadProgram threadFinish a (i, keys) =
        some ⟨a.shared, Function.update a.thread i (threadReceived c n)⟩ := by
      simp only [atomicStep, hthread, threadProgram, threadNext, hopen, hn, if_true, Option.map_some]
    have hothers₁ := resting_others hothers (threadReceived c n)
    cases hpc : (threadReceived c n).pc with
    | backlog => exact absurd hpc (keeps_received c n).accepted
    | loop lines =>
      obtain ⟨a', hreach, hR', hrest⟩ := exists_sent (relates_answers hR hthread hopen hn hpc keys) hothers₁
        (by simpa only [Function.update_self] using hpc) keys
      exact ⟨a', (Interleaving.Reachable.of_step hreceive).trans hreach, hR', hrest⟩
    | lock access =>
      obtain ⟨⟨c₁, pc₁⟩, hh⟩ : ∃ h, threadReceived c n = h := ⟨_, rfl⟩
      obtain rfl : pc₁ = .lock access := by rw [← hpc, hh]
      have hR₁ := relates_asks hR hthread hopen hn hpc
      rw [hh] at hR₁ hreceive
      have hthread₁ : (Function.update a.thread i ⟨c₁, .lock access⟩) i = ⟨c₁, .lock access⟩ := Function.update_self ..
      have hlock := relates_access hR₁ hthread₁ keys
      have htake : atomicStep threadProgram threadFinish ⟨a.shared, Function.update a.thread i ⟨c₁, .lock access⟩⟩ (i, keys) =
          some ⟨(threadFinish a.shared (c₁, access.start keys)).1,
            Function.update (Function.update a.thread i ⟨c₁, .lock access⟩) i (threadFinish a.shared (c₁, access.start keys)).2⟩ := by
        simp only [atomicStep, Function.update_self, threadProgram, threadNext]
      obtain ⟨a', hreach, hR', hrest⟩ := exists_sent hlock (resting_others (resting_others hothers _) _)
        (by simp only [Function.update_self]; rfl) keys
      have hfirst : Leads a _ := .of_step hreceive
      exact ⟨a', hfirst.trans ((Interleaving.Reachable.of_step htake).trans hreach), hR', hrest⟩
  · have hidle : (step S ⟨i, keys⟩).1 = S := by
      refine step_idle (fun hopen => ?_)
      rw [hconn] at hopen ⊢
      exact Option.eq_none_iff_forall_ne_some.mpr (fun n hn => hline ⟨n, hopen, hn⟩)
    exact ⟨a, .refl a, hidle.symm ▸ hR, fun j => by
      by_cases hj : j = i
      · exact .inr (by rw [hj, hthread])
      · exact hothers j hj⟩

/-- From rest a thread can do its turn. -/
theorem exists_turn (hR : Relates a S) (hrest : ∀ j, (a.thread j).Resting) (t : Turn) :
    ∃ a', Leads a a' ∧ Relates a' (step S t).1 ∧ ∀ j, (a'.thread j).Resting := by
  obtain ⟨i, keys⟩ := t
  obtain ⟨⟨c, pc⟩, hthread⟩ : ∃ h, a.thread i = h := ⟨_, rfl⟩
  have hpc := hrest i
  rw [hthread] at hpc
  rcases hpc with hpc | hpc <;> obtain rfl := hpc
  · have haccept : atomicStep threadProgram threadFinish a (i, keys) =
        some ⟨a.shared, Function.update a.thread i ⟨c, .loop []⟩⟩ := by
      simp only [atomicStep, hthread, threadProgram, threadNext]
    obtain ⟨a', hreach, hR', hrest'⟩ := exists_turn_of_loop (relates_accepted hR hthread)
      (resting_others (fun j _ => hrest j) _) (Function.update_self ..) keys
    exact ⟨a', (Interleaving.Reachable.of_step haccept).trans hreach, hR', hrest'⟩
  · exact exists_turn_of_loop hR (fun j _ => hrest j) hthread keys

/-- And so can the threads, turn by turn. -/
theorem exists_turns (hR : Relates a S) (hrest : ∀ j, (a.thread j).Resting) (ts : List Turn) :
    ∃ a', Leads a a' ∧ Relates a' (Runs.final step S ts) ∧
      ∀ j, (a'.thread j).Resting := by
  induction ts generalizing a S with
  | nil => exact ⟨a, .refl a, hR, hrest⟩
  | cons t ts ih =>
    obtain ⟨a₁, hreach₁, hR₁, hrest₁⟩ := exists_turn hR hrest t
    obtain ⟨a', hreach, hR', hrest'⟩ := ih hR₁ hrest₁
    exact ⟨a', hreach₁.trans hreach, hR', hrest'⟩

end ThreadsAux

/-- Whatever the order of the steps of the threads, what they show after the first of them is what a list of turns leaves, and what they
show later, whatever steps these are, is what this list and some further turns leave. So a turn that was answered comes before one whose
line had not come. -/
theorem threads_behave_like_turns {inputs : Nat → Stream} {as : List (Nat × CharArray maxLine)} {s : Threads}
    (h : run threadsStep (Threads.init inputs) as = some s) :
    ∃ ts, s.Shows (Runs.final step (State.init inputs) ts) ∧ ∀ bs s', run threadsStep s bs = some s' →
      ∃ us, s'.Shows (Runs.final step (State.init inputs) (ts ++ us)) := by
  have hexcl : Exclusive s := (exclusive_init inputs).reachable ⟨as, h⟩
  obtain ⟨ts, hts⟩ := relates_reachable (relates_init inputs) (abs_reachable finishes (exclusive_init inputs) ⟨as, h⟩)
  refine ⟨ts, shows_of_relates hts, fun bs s' h' => ?_⟩
  obtain ⟨us, hus⟩ := relates_reachable hts (abs_reachable finishes hexcl ⟨bs, h'⟩)
  refine ⟨us, ?_⟩
  rw [Runs.final, List.foldl_append]
  exact shows_of_relates hus

/-- One client puts a value, another one gets it. -/
def storing : Nat → Stream
  | 0 => ⟨bytes "AUTH alice alicepass\nPUT k v\n", .waiting⟩
  | _ => ⟨bytes "AUTH bob bobpass\nGET k\n", .waiting⟩

/-- So many steps of one thread. -/
def times (k i : Nat) : List (Nat × CharArray maxLine) := List.replicate k (i, CharArray.zero maxLine)

/-- Both log in, and the first one takes the lock. -/
def untilLock : List (Nat × CharArray maxLine) := times 3 0 ++ times 3 1 ++ times 2 0

theorem untilLock_owner : (run threadsStep (Threads.init storing) untilLock).map (·.owner) = some (some 0) := by
  decide +kernel

/-- It goes through `store_put`, while the other one receives its line; then the other one goes through `store_get`. -/
def throughStore : List (Nat × CharArray maxLine) := times 60 0 ++ times 1 1 ++ times 75 0 ++ times 1 1 ++ times 1 0 ++ times 3 1

/-- What they show while the one is in `store_put`, and when both are answered, is what lists of turns leave. -/
theorem threads_behave_like_turns_stored : ∃ s s' : Threads,
    run threadsStep (Threads.init storing) untilLock = some s ∧ s.owner = some 0 ∧ run threadsStep s throughStore = some s' ∧
      (s'.conn 0).sent = bytes "OK AUTH\nOK PUT\n" ∧ (s'.conn 1).sent = bytes "OK AUTH\nOK GET v\n" ∧
      ∃ ts us, s.Shows (Runs.final step (State.init storing) ts) ∧ s'.Shows (Runs.final step (State.init storing) (ts ++ us)) := by
  have hsent : (run threadsStep (Threads.init storing) (untilLock ++ throughStore)).map (fun s => ((s.conn 0).sent, (s.conn 1).sent)) =
      some (bytes "OK AUTH\nOK PUT\n", bytes "OK AUTH\nOK GET v\n") := by decide +kernel
  obtain ⟨s, h, hs⟩ := Option.map_eq_some_iff.mp untilLock_owner
  rw [run_append h] at hsent
  obtain ⟨s', h', hs'⟩ := Option.map_eq_some_iff.mp hsent
  obtain ⟨ts, hts, hlater⟩ := threads_behave_like_turns h
  obtain ⟨us, hus⟩ := hlater _ s' h'
  exact ⟨s, s', h, hs, h', congrArg Prod.fst hs', congrArg Prod.snd hs', ts, us, hts, hus⟩

/-- The states that lists of turns lead to are those in which the threads are at rest. -/
theorem turns_are_threads_at_rest (inputs : Nat → Stream) (S : State) :
    (∃ ts, Runs.final step (State.init inputs) ts = S) ↔
      ∃ s : Threads, Interleaving.Reachable threadsStep (Threads.init inputs) s ∧ s.owner = none ∧ s.shared = S.store ∧
        ∀ i, s.AtRest i ∧ s.conn i = S.conn i := by
  have hexcl := exclusive_init inputs
  constructor
  · rintro ⟨ts, rfl⟩
    obtain ⟨a', hreach, hR, hrest⟩ := exists_turns (relates_init inputs) (fun _ => .inl rfl) ts
    obtain ⟨s, hs, hfree, rfl⟩ := exists_of_atomic_reachable finishes hexcl rfl hreach
    have hshows := shows_of_relates hR
    have hatrest : ∀ i, Threads.AtRest s i := by
      intro i
      obtain ⟨h, hplace⟩ := (hexcl.reachable hs).outside (u := i) (by rw [hfree]; exact nofun)
      exact ⟨h, hplace, by simpa only [abs_thread_outside hplace] using hrest i⟩
    exact ⟨s, hs, hfree, hshows.store hfree, fun i => ⟨hatrest i, hshows.rest i (hatrest i)⟩⟩
  · rintro ⟨s, hs, hfree, hstore, hrest⟩
    obtain ⟨ts, hR⟩ := relates_reachable (relates_init inputs) (abs_reachable finishes hexcl hs)
    have hshows := shows_of_relates hR
    refine ⟨ts, ?_⟩
    have hconn : (Runs.final step (State.init inputs) ts).conn = S.conn :=
      funext fun i => (hshows.rest i (hrest i).1).symm.trans (hrest i).2
    have hsame : (Runs.final step (State.init inputs) ts).store = S.store := (hshows.store hfree).symm.trans hstore
    cases hfinal : Runs.final step (State.init inputs) ts with
    | mk store conn =>
      rw [hfinal] at hconn hsame
      cases S
      exact congrArg₂ State.mk hsame hconn

end OsSecurity.Server
