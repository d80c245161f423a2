import Cs162.Socket
import Mathlib.Data.Option.Defs

/-!
# Exchanges are atomic

However the calls of different exchanges are interleaved, the followers and the threads of the
leader do what they do in a run in which each exchange is one step, and so is the handling of each
request left behind (`socket_run_atomic`). An exchange stands where the follower handles the
request, or where it is given up. How much of the reply the leader will have read is only decided
later, so the steps are found from the end of the run back: what is foreseen in a state is the
number of bytes that the leader will read of each reply.

Where nothing left behind is ever handled, the run is one of whole exchanges
(`socket_run_exchanges`).
-/

namespace Cs162

open CLib

variable {strhash64 : CStr → UInt64} {indexPage : List UInt8} {l : TpcLeader}

/-! ## What a thread needs -/

/-- The key of the request leads to a primary. -/
def TpcLocals.Grounded (strhash64 : CStr → UInt64) (l : TpcLeader) (t : TpcLocals) : Prop :=
  ∃ key primary, t.req.key = some key ∧ tpcleaderGetPrimary strhash64 l key = some (some primary)

def TpcThread.Grounded (strhash64 : CStr → UInt64) (l : TpcLeader) (thread : TpcThread) : Prop :=
  ∀ t ∈ thread.locals, t.Grounded strhash64 l

variable {thread thread' : TpcThread} {t : TpcLocals} {con : Contact}

theorem phase2Head_grounded (h : t.Grounded strhash64 l) : (phase2Head t).Grounded strhash64 l := by
  intro t' ht'
  unfold phase2Head at ht'
  split_ifs at ht' <;> cases ht'
  exact h

theorem phase1Head_grounded (h : t.Grounded strhash64 l) :
    ∃ thread, phase1Head strhash64 l t = some thread ∧ thread.Grounded strhash64 l := by
  obtain ⟨key, primary, hkey, hprimary⟩ := h
  unfold phase1Head
  split
  · refine ⟨_, rfl, fun t' ht' => ?_⟩
    cases ht'
    exact ⟨key, primary, hkey, hprimary⟩
  · let type : MsgType := if 0 < t.abortBool then .abort else .commit
    refine ⟨phase2Head ⟨{ t.req with type }, l.rVal, primary, t.abortBool⟩, ?_,
      phase2Head_grounded ⟨key, primary, hkey, hprimary⟩⟩
    simp only [endPhase1, hkey, hprimary, Option.bind_eq_bind, Option.bind_some, Option.pure_def,
      type]

theorem handleTpc_grounded {req : KvRequest}
    (hhandle : tpcleaderHandleTpc strhash64 l req = some thread) : thread.Grounded strhash64 l := by
  unfold tpcleaderHandleTpc at hhandle
  split at hhandle
  · cases hhandle
    intro t ht
    cases ht
  · simp only [Option.bind_eq_bind, Option.bind_eq_some_iff] at hhandle
    obtain ⟨key, hkey, found, hfound, primary, rfl, hhead⟩ := hhandle
    have hstart : TpcLocals.Grounded strhash64 l ⟨req, l.rVal, primary, 0⟩ :=
      ⟨key, primary, hkey, hfound⟩
    obtain ⟨_, hhead', hgrounded⟩ := phase1Head_grounded hstart
    cases hhead.symm.trans hhead'
    exact hgrounded

theorem receive_grounded (h : thread.Grounded strhash64 l)
    (hrec : thread.receive strhash64 l con = some thread') : thread'.Grounded strhash64 l := by
  cases thread with
  | phase1 t =>
    simp only [TpcThread.receive, Option.bind_eq_bind, Option.bind_eq_some_iff] at hrec
    obtain ⟨abort, -, hhead⟩ := hrec
    obtain ⟨_, hhead', hgrounded⟩ := phase1Head_grounded (t := { t with
      rVal := t.rVal - 1
      currFollower := tpcleaderGetSuccessor l t.currFollower
      abortBool := if abort then t.abortBool + 1 else t.abortBool }) (h t rfl)
    cases hhead.symm.trans hhead'
    exact hgrounded
  | phase2 t =>
    simp only [TpcThread.receive] at hrec
    split at hrec <;> cases hrec
    · exact phase2Head_grounded (h t rfl)
    · exact h
  | ended res =>
    cases hrec
    exact h

/-- A thread that gets no reply goes on. -/
theorem receive_noReply (h : thread.Grounded strhash64 l) :
    ∃ thread', thread.receive strhash64 l .noReply = some thread' := by
  cases thread with
  | phase1 t =>
    obtain ⟨thread', hhead, -⟩ := phase1Head_grounded (t := { t with
      rVal := t.rVal - 1
      currFollower := tpcleaderGetSuccessor l t.currFollower
      abortBool := t.abortBool + 1 }) (h t rfl)
    exact ⟨thread', hhead⟩
  | phase2 t => exact ⟨_, rfl⟩
  | ended res => exact ⟨_, rfl⟩

/-! ## The invariant -/

/-- A connection is a thread's that stands before an exchange, for its message. -/
structure Connected (strhash64 : CStr → UInt64) (l : TpcLeader) (txn : Option Txn)
    (conn : Option Conn) : Prop where
  grounded : ∀ x ∈ txn, x.thread.Grounded strhash64 l
  conn : ∀ c ∈ conn, ∃ x t, txn = some x ∧ x.thread.locals = some t ∧
    c.request.message = (kvrequestSend t.req).getD []

/-- What is the same in matching runs: a client's bytes that are handed to the leader, and a request
left behind that is handled. -/
inductive Occasion
  | request (i : ℕ) (sent : List UInt8)
  | late (k n : ℕ)

def SocketEvent.occasions : SocketEvent → List Occasion
  | accept i sent => [.request i sent]
  | late k n => [.late k n]
  | _ => []

def WireEvent.occasions : WireEvent → List Occasion
  | accept i sent => [.request i sent]
  | exchange _ _ => []

def LeftEvent.occasions : LeftEvent → List Occasion
  | wire e => e.occasions
  | late k n => [.late k n]
  | giveUp _ _ => []

namespace SocketSystem

variable {s s' : SocketSystem} {i : ℕ} {x : Txn}

def Inv (strhash64 : CStr → UInt64) (l : TpcLeader) (s : SocketSystem) : Prop :=
  ∀ i, Connected strhash64 l (s.txns i) (s.conns i)

/-- The state after the thread of a transaction has run on. -/
def advanced (s : SocketSystem) (i : ℕ) (x : Txn) (thread : TpcThread) : SocketSystem :=
  { s with
    txns := Function.update s.txns i (some { x with thread })
    conns := Function.update s.conns i none }

theorem advance_eq (hx : s.txns i = some x) :
    s.advance strhash64 l i con = (x.thread.receive strhash64 l con).map (s.advanced i x) := by
  simp only [advance, hx, Option.bind_eq_bind, Option.pure_def, Option.map_eq_bind]
  rfl

/-- Nothing is read of a reply that is not there. -/
theorem contactOf_unhandled (request : SendLoop UInt8) (n : ℕ) :
    contactOf ((Conn.replied ⟨request, none⟩).take n) = some .noReply := by
  rw [Conn.replied, Option.elim_none, List.take_nil]
  rfl

/-- What becomes of the state at an event. -/
inductive Does (strhash64 : CStr → UInt64) (indexPage : List UInt8) (l : TpcLeader)
    (s : SocketSystem) : SocketEvent → Option SocketSystem → Prop
  | idle {e : SocketEvent} (he : e.occasions = []) : Does strhash64 indexPage l s e (some s)
  | accept (i : ℕ) (sent : List UInt8) : Does strhash64 indexPage l s (.accept i sent)
      ((s.toWireSystem.accept strhash64 l i sent).map fun wire => { s with toWireSystem := wire })
  | connect (i : ℕ) {x : Txn} {t : TpcLocals} (hx : s.txns i = some x)
      (ht : x.thread.locals = some t) (hc : s.conns i = none) :
      Does strhash64 indexPage l s (.connect i true) (some { s with
        conns := Function.update s.conns i (some ⟨.start ((kvrequestSend t.req).getD []), none⟩) })
  | refuse (i : ℕ) {x : Txn} {t : TpcLocals} (hx : s.txns i = some x)
      (ht : x.thread.locals = some t) (hc : s.conns i = none) :
      Does strhash64 indexPage l s (.connect i false)
        ((x.thread.receive strhash64 l .refused).map (s.advanced i x))
  | write (i : ℕ) (r : WriteResult) {c : Conn} (hc : s.conns i = some c) :
      Does strhash64 indexPage l s (.write i r) (some { s with
        conns := Function.update s.conns i (some { c with request := c.request.write r }) })
  | handle (i n : ℕ) {x : Txn} {t : TpcLocals} {request : SendLoop UInt8} (hx : s.txns i = some x)
      (ht : x.thread.locals = some t) (hc : s.conns i = some ⟨request, none⟩) :
      Does strhash64 indexPage l s (.handle i n)
        ((kvserverHandle strhash64 indexPage (s.followers (l.addr t.currFollower))
          (request.written.take n)).map fun handled => { s with
            followers := Function.update s.followers (l.addr t.currFollower) handled.1
            conns := Function.update s.conns i (some ⟨request, some (.start handled.2)⟩) })
  | respond (i : ℕ) (r : WriteResult) {c : Conn} (hc : s.conns i = some c) :
      Does strhash64 indexPage l s (.respond i r) (some { s with
        conns := Function.update s.conns i (some { c with reply := c.reply.map (·.write r) }) })
  | giveUp (i n : ℕ) {x : Txn} {t : TpcLocals} {request : SendLoop UInt8} (hx : s.txns i = some x)
      (ht : x.thread.locals = some t) (hc : s.conns i = some ⟨request, none⟩) :
      Does strhash64 indexPage l s (.receive i n)
        ((x.thread.receive strhash64 l .noReply).map fun thread => { s.advanced i x thread with
          left := s.left ++ [⟨l.addr t.currFollower, request.written⟩] })
  | receive (i n : ℕ) {x : Txn} {t : TpcLocals} {c : Conn} {sending : SendLoop UInt8}
      (hx : s.txns i = some x) (ht : x.thread.locals = some t) (hc : s.conns i = some c)
      (hreply : c.reply = some sending) :
      Does strhash64 indexPage l s (.receive i n) ((contactOf (c.replied.take n)).bind fun con =>
        (x.thread.receive strhash64 l con).map (s.advanced i x))
  | late (k n : ℕ) : Does strhash64 indexPage l s (.late k n)
      ((s.toLeftSystem.late strhash64 indexPage k n).map fun left =>
        { s with toLeftSystem := left })

variable (indexPage) in
theorem Inv.does (h : Inv strhash64 l s) (e : SocketEvent) :
    Does strhash64 indexPage l s e (s.step strhash64 indexPage l e) := by
  have hthread : ∀ i t, s.locals i = some t → ∃ x, s.txns i = some x ∧ x.thread.locals = some t :=
    fun i t ht => Option.bind_eq_some_iff.1 ht
  cases e with
  | accept i sent =>
    have hdoes : Does strhash64 indexPage l s (.accept i sent) _ := .accept i sent
    rw [Option.map_eq_bind] at hdoes
    exact hdoes
  | connect i succeeds =>
    simp only [step, SocketSystem.connect]
    split
    · next t ht hc =>
      obtain ⟨x, hx, ht⟩ := hthread i t ht
      cases succeeds
      · simpa only [Bool.false_eq_true, if_false, advance_eq hx] using Does.refuse i hx ht hc
      · exact .connect i hx ht hc
    · exact .idle rfl
  | write i r =>
    simp only [step, SocketSystem.write]
    split
    · next c hc => exact .write i r hc
    · exact .idle rfl
  | handle i n =>
    simp only [step, SocketSystem.handle]
    split
    · next t request ht hc =>
      obtain ⟨x, hx, ht⟩ := hthread i t ht
      have hdoes : Does strhash64 indexPage l s (.handle i n) _ := .handle i n hx ht hc
      rw [Option.map_eq_bind] at hdoes
      exact hdoes
    · exact .idle rfl
  | respond i r =>
    simp only [step, SocketSystem.respond]
    split
    · next c hc => exact .respond i r hc
    · exact .idle rfl
  | receive i n =>
    simp only [step, SocketSystem.receive]
    split
    · exact .idle rfl
    · next c hc =>
      split_ifs
      · exact .idle rfl
      · obtain ⟨x, t, hx, ht, -⟩ := (h i).conn c hc
        have hlocals : s.locals i = some t := by rw [SocketSystem.locals, hx, Option.bind_some, ht]
        rcases hreply : c.reply with _ | sending
        · obtain ⟨request, _⟩ := c
          obtain rfl : _ = none := hreply
          have hx' : (s.leave l i ⟨request, none⟩).txns i = some x := by
            rw [leave, hlocals]
            exact hx
          rw [contactOf_unhandled, Option.bind_eq_bind, Option.bind_some, advance_eq hx']
          rw [leave, hlocals]
          exact .giveUp i n hx ht hc
        · have hleave : s.leave l i c = s := by rw [leave, hlocals, hreply]
          simp only [hleave, advance_eq hx]
          exact .receive i n hx ht hc hreply
  | late k n =>
    have hdoes : Does strhash64 indexPage l s (.late k n) _ := .late k n
    rw [Option.map_eq_bind] at hdoes
    exact hdoes

/-- Only what a transaction stands at changes. -/
theorem Inv.of_connected (h : Inv strhash64 l s)
    (hi : Connected strhash64 l (s'.txns i) (s'.conns i))
    (hne : ∀ j ≠ i, s'.txns j = s.txns j ∧ s'.conns j = s.conns j) : Inv strhash64 l s' := by
  intro j
  by_cases hj : j = i
  · exact hj ▸ hi
  · rw [(hne j hj).1, (hne j hj).2]
    exact h j

theorem Inv.advanced (h : Inv strhash64 l s) (hx : s.txns i = some x) {thread : TpcThread}
    (hrec : x.thread.receive strhash64 l con = some thread) :
    Inv strhash64 l (s.advanced i x thread) := by
  refine h.of_connected (i := i) ⟨?_, ?_⟩ fun j hj =>
    ⟨Function.update_of_ne hj .., Function.update_of_ne hj ..⟩
  · simp only [SocketSystem.advanced, Function.update_self, Option.mem_some_iff, forall_eq']
    exact receive_grounded ((h i).grounded x hx) hrec
  · simp [SocketSystem.advanced]

/-- Requests left behind are no transaction's. -/
theorem Inv.congr (h : Inv strhash64 l s) (htxns : s'.txns = s.txns) (hconns : s'.conns = s.conns) :
    Inv strhash64 l s' := by
  intro i
  rw [htxns, hconns]
  exact h i

theorem Inv.setConn (h : Inv strhash64 l s) (followers : Addr → KvServer) {c : Conn}
    (hi : Connected strhash64 l (s.txns i) (some c)) :
    Inv strhash64 l { s with followers, conns := Function.update s.conns i (some c) } :=
  h.of_connected (i := i) (by simpa only [Function.update_self] using hi) fun j hj =>
    ⟨rfl, Function.update_of_ne hj ..⟩

theorem late_txns {u u' : LeftSystem} {k n : ℕ} (h : u.late strhash64 indexPage k n = some u') :
    u'.txns = u.txns := by
  unfold LeftSystem.late at h
  split at h
  · cases h
    rfl
  · obtain ⟨handled, -, h⟩ := Option.bind_eq_some_iff.1 h
    cases h
    rfl

theorem Inv.step (h : Inv strhash64 l s) {e : SocketEvent}
    (hstep : s.step strhash64 indexPage l e = some s') : Inv strhash64 l s' := by
  have hdoes := h.does indexPage e
  rw [hstep] at hdoes
  generalize ho : some s' = o at hdoes
  cases hdoes with
  | idle =>
    cases ho
    exact h
  | accept i sent =>
    obtain ⟨wire, hwire, rfl⟩ := Option.map_eq_some_iff.1 ho.symm
    unfold WireSystem.accept at hwire
    split at hwire
    · cases hwire
      exact h
    · split_ifs at hwire with hsome
      · cases hwire
        exact h
      · simp only [Option.bind_eq_bind, Option.bind_eq_some_iff, Option.pure_def,
          Option.some.injEq] at hwire
        obtain ⟨thread, hthread, rfl⟩ := hwire
        refine h.of_connected (i := i) ⟨?_, fun c hc => ?_⟩ fun j hj =>
          ⟨Function.update_of_ne hj .., rfl⟩
        · simp only [Function.update_self, Option.mem_some_iff, forall_eq']
          exact handleTpc_grounded hthread
        · -- A thread not used before has no connection.
          obtain ⟨x, t, hx, -⟩ := (h i).conn c hc
          exact absurd (Option.isSome_iff_exists.2 ⟨x, hx⟩) hsome
  | connect i hx ht hc =>
    cases ho
    refine h.setConn s.followers ⟨(h i).grounded, ?_⟩
    rintro c ⟨⟩
    exact ⟨_, _, hx, ht, rfl⟩
  | refuse i hx ht hc =>
    obtain ⟨thread, hrec, rfl⟩ := Option.map_eq_some_iff.1 ho.symm
    exact h.advanced hx hrec
  | write i r hc =>
    cases ho
    refine h.setConn s.followers ⟨(h i).grounded, ?_⟩
    rintro c ⟨⟩
    simpa only [SendLoop.message_write] using (h i).conn _ hc
  | handle i n hx ht hc =>
    obtain ⟨handled, -, rfl⟩ := Option.map_eq_some_iff.1 ho.symm
    refine h.setConn _ ⟨(h i).grounded, ?_⟩
    have hconn := (h i).conn _ hc
    rintro c ⟨⟩
    exact hconn
  | respond i r hc =>
    cases ho
    refine h.setConn s.followers ⟨(h i).grounded, ?_⟩
    have hconn := (h i).conn _ hc
    rintro c ⟨⟩
    exact hconn
  | giveUp i n hx ht hc =>
    obtain ⟨thread, hrec, rfl⟩ := Option.map_eq_some_iff.1 ho.symm
    exact (h.advanced hx hrec).congr rfl rfl
  | receive i n hx ht hc =>
    obtain ⟨con, -, hadv⟩ := Option.bind_eq_some_iff.1 ho.symm
    obtain ⟨thread, hrec, rfl⟩ := Option.map_eq_some_iff.1 hadv
    exact h.advanced hx hrec
  | late k n =>
    obtain ⟨left, hleft, rfl⟩ := Option.map_eq_some_iff.1 ho.symm
    exact h.congr (late_txns hleft) rfl

/-! ## Foreseeing -/

/-- What is sent as the reply to a transaction's message, once that is handled. -/
def reply (s : SocketSystem) (i : ℕ) : Option (List UInt8) :=
  (s.conns i).bind fun c => c.reply.map (·.message)

/-- A transaction at the end of its exchange, if `n` bytes of the reply will be read. -/
def foreseenTxn (strhash64 : CStr → UInt64) (l : TpcLeader) :
    Option Txn → Option (List UInt8) → ℕ → Option (Option Txn)
  | some x, some reply, n => (contactOf (reply.take n)).bind fun con =>
      (x.thread.receive strhash64 l con).map fun thread => some { x with thread }
  | txn, _, _ => some txn

def foreseen (strhash64 : CStr → UInt64) (l : TpcLeader) (s : SocketSystem) (p : ℕ → ℕ) (i : ℕ) :
    Option (Option Txn) :=
  foreseenTxn strhash64 l (s.txns i) (s.reply i) (p i)

/-- The followers are in the same state, and the same requests are left behind. -/
def Shares (s : SocketSystem) (t : LeftSystem) : Prop :=
  t.followers = s.followers ∧ t.left = s.left

/-- The system in which the exchanges are over whose message is handled. -/
def Foresees (strhash64 : CStr → UInt64) (l : TpcLeader) (s : SocketSystem) (p : ℕ → ℕ) :
    Option LeftSystem → Prop
  | some t => s.Shares t ∧ ∀ i, s.foreseen strhash64 l p i = some (t.txns i)
  | none => ∃ i, s.foreseen strhash64 l p i = none

variable {p p' : ℕ → ℕ} {o : Option LeftSystem}

theorem foreseen_unhandled (h : s.reply i = none) :
    s.foreseen strhash64 l p i = some (s.txns i) := by
  rw [foreseen, h]
  rcases s.txns i with _ | x <;> rfl

theorem isSome_of_foreseen {txn : Option Txn} (h : s.foreseen strhash64 l p i = some txn) :
    txn.isSome = (s.txns i).isSome := by
  unfold foreseen foreseenTxn at h
  split at h
  · next hx _ =>
    obtain ⟨con, -, hrec⟩ := Option.bind_eq_some_iff.1 h
    obtain ⟨thread, -, rfl⟩ := Option.map_eq_some_iff.1 hrec
    rw [hx]
    rfl
  · cases h
    rfl

/-- What is foreseen stays the same. -/
theorem Foresees.congr (h : s.Foresees strhash64 l p o)
    (hsame : s'.followers = s.followers ∧ s'.left = s.left)
    (hall : ∀ j, s'.foreseen strhash64 l p' j = s.foreseen strhash64 l p j) :
    s'.Foresees strhash64 l p' o := by
  cases o with
  | none =>
    obtain ⟨j, hj⟩ := h
    exact ⟨j, (hall j).trans hj⟩
  | some t =>
    obtain ⟨⟨hfollowers, hleft⟩, htxns⟩ := h
    exact ⟨⟨hfollowers.trans hsame.1.symm, hleft.trans hsame.2.symm⟩,
      fun j => (hall j).trans (htxns j)⟩

/-- A transaction whose message is not handled makes a step in both systems. -/
theorem Foresees.bind (h : s.Foresees strhash64 l p o) (hi : s.reply i = none)
    (hne : ∀ j ≠ i, s'.foreseen strhash64 l p' j = s.foreseen strhash64 l p j)
    {f : LeftSystem → Option LeftSystem}
    (hf : ∀ t, s.Shares t → t.txns i = s.txns i →
      (∃ t', f t = some t' ∧ s'.Shares t' ∧ (∀ j ≠ i, t'.txns j = t.txns j) ∧
        s'.foreseen strhash64 l p' i = some (t'.txns i)) ∨
      f t = none ∧ s'.foreseen strhash64 l p' i = none) :
    s'.Foresees strhash64 l p' (o.bind f) := by
  have hunhandled : s.foreseen strhash64 l p i = some (s.txns i) := foreseen_unhandled hi
  cases o with
  | none =>
    obtain ⟨j, hj⟩ := h
    refine ⟨j, (hne j ?_).trans hj⟩
    rintro rfl
    cases hunhandled.symm.trans hj
  | some t =>
    obtain ⟨hshares, hall⟩ := h
    have htxn : t.txns i = s.txns i := Option.some.inj ((hall i).symm.trans hunhandled)
    rw [Option.bind_some]
    rcases hf t hshares htxn with ⟨t', ht', hshares', hother, hi'⟩ | ⟨ht', hi'⟩
    · rw [ht']
      refine ⟨hshares', fun j => ?_⟩
      by_cases hj : j = i
      · exact hj ▸ hi'
      · rw [hne j hj, hother j hj, hall j]
    · rw [ht']
      exact ⟨i, hi'⟩

/-- What a step of the one system leads to, against where the other one got to. -/
def Matches (strhash64 : CStr → UInt64) (l : TpcLeader) (p : ℕ → ℕ) :
    Option SocketSystem → Option LeftSystem → Prop
  | some s, o => s.Foresees strhash64 l p o
  | none, o => o = none

theorem runOf_single (w : LeftSystem) (e : LeftEvent) :
    runOf (LeftSystem.step strhash64 indexPage l) w [e] = w.step strhash64 indexPage l e := by
  simp only [runOf, Option.bind_fun_some]

theorem exchange_eq {w : LeftSystem} (hx : w.txns i = some x) (ht : x.thread.locals = some t)
    (d : WireDelivery) :
    w.step strhash64 indexPage l (.wire (.exchange i d)) =
      (exchangeBytes strhash64 indexPage (w.followers (l.addr t.currFollower)) t.req d).bind
        fun exchanged => (x.thread.receive strhash64 l exchanged.2).map fun thread => { w with
          followers := Function.update w.followers (l.addr t.currFollower) exchanged.1
          txns := Function.update w.txns i (some { x with thread }) } := by
  simp only [LeftSystem.step, WireSystem.step, WireSystem.exchange, hx, ht, Option.bind_eq_bind,
    Option.pure_def, Option.map_eq_bind, Option.bind_assoc, Option.bind_some, Function.comp_def]

theorem refuse_eq {w : LeftSystem} (hx : w.txns i = some x) (ht : x.thread.locals = some t) :
    w.step strhash64 indexPage l (.wire (.exchange i .refused)) =
      (x.thread.receive strhash64 l .refused).map fun thread => { w with
        txns := Function.update w.txns i (some { x with thread }), left := w.left ++ [] } := by
  rw [exchange_eq hx ht, List.append_nil]
  simp only [exchangeBytes, Option.bind_some, Function.update_eq_self]

theorem giveUp_eq {w : LeftSystem} (hx : w.txns i = some x) (ht : x.thread.locals = some t)
    (request : ℕ) :
    w.step strhash64 indexPage l (.giveUp i request) =
      (x.thread.receive strhash64 l .noReply).map fun thread => { w with
        txns := Function.update w.txns i (some { x with thread })
        left := w.left ++
          [⟨l.addr t.currFollower, ((kvrequestSend t.req).getD []).take request⟩] } := by
  simp only [LeftSystem.step, LeftSystem.giveUp, hx, ht, Option.bind_eq_bind, Option.pure_def,
    Option.map_eq_bind]
  rfl

variable (indexPage) in
/-- The thread of a transaction runs on, and what is left behind grows in both systems. -/
theorem Foresees.advance (h : s.Foresees strhash64 l p o) (hi : s.reply i = none)
    (hx : s.txns i = some x) {more : List LeftBehind} {e : LeftEvent}
    (he : ∀ w : LeftSystem, w.txns i = some x → w.step strhash64 indexPage l e =
      (x.thread.receive strhash64 l con).map fun thread => { w with
        txns := Function.update w.txns i (some { x with thread })
        left := w.left ++ more }) :
    Matches strhash64 l p ((x.thread.receive strhash64 l con).map fun thread =>
        { s.advanced i x thread with left := s.left ++ more })
      (o.bind fun w => runOf (LeftSystem.step strhash64 indexPage l) w [e]) := by
  simp only [runOf_single]
  rcases hrec : x.thread.receive strhash64 l con with _ | thread
  · -- The other system cannot have stopped before, as the message is not handled.
    rcases o with _ | w
    · rfl
    · have hw := Option.some.inj ((h.2 i).symm.trans (foreseen_unhandled hi))
      rw [Option.bind_some, he w (hw.trans hx), hrec]
      rfl
  · rw [Option.map_some]
    refine h.bind hi (fun j hj => ?_) fun w hshares hw => .inl ⟨{ w with
      txns := Function.update w.txns i (some { x with thread })
      left := w.left ++ more }, ?_, ⟨hshares.1, ?_⟩, fun j hj => Function.update_of_ne hj .., ?_⟩
    · simp only [foreseen, reply, advanced, Function.update_of_ne hj]
    · rw [he w (hw.trans hx), hrec, Option.map_some]
    · simp only [hshares.2]
    · refine (foreseen_unhandled ?_).trans ?_
      · simp [reply, advanced]
      · simp only [advanced, Function.update_self]

/-- The follower handles the message: here the other system makes the whole exchange. -/
theorem Foresees.handle (h : s.Foresees strhash64 l p o) (hx : s.txns i = some x)
    (ht : x.thread.locals = some t) {request : SendLoop UInt8}
    (hc : s.conns i = some ⟨request, none⟩)
    (hmsg : request.message = (kvrequestSend t.req).getD []) {n : ℕ} :
    Matches strhash64 l p ((kvserverHandle strhash64 indexPage
        (s.followers (l.addr t.currFollower)) (request.written.take n)).map fun handled => { s with
          followers := Function.update s.followers (l.addr t.currFollower) handled.1
          conns := Function.update s.conns i (some ⟨request, some (.start handled.2)⟩) })
      (o.bind fun w => runOf (LeftSystem.step strhash64 indexPage l) w
        [.wire (.exchange i (.connected (min n request.written.length) (p i)))]) := by
  simp only [runOf_single]
  have hi : s.reply i = none := by simp [reply, hc]
  have hread : request.written.take n =
      ((kvrequestSend t.req).getD []).take (min n request.written.length) := by
    rw [← hmsg, SendLoop.take_written]
  -- The exchange leads to what is foreseen, if to anything.
  have hexchange : ∀ w : LeftSystem, w.followers = s.followers → w.txns i = s.txns i →
      w.step strhash64 indexPage l
          (.wire (.exchange i (.connected (min n request.written.length) (p i)))) =
        (kvserverHandle strhash64 indexPage (s.followers (l.addr t.currFollower))
          (request.written.take n)).bind fun handled =>
            (foreseenTxn strhash64 l (s.txns i) (some handled.2) (p i)).map fun txn => { w with
              followers := Function.update w.followers (l.addr t.currFollower) handled.1
              txns := Function.update w.txns i txn } := by
    intro w hfollowers hw
    rw [exchange_eq (hw.trans hx) ht, hfollowers, hread, hx]
    simp only [exchangeBytes, foreseenTxn, Option.bind_eq_bind, Option.pure_def, Option.bind_assoc,
      Option.map_bind, Option.bind_some, Option.map_map, Function.comp_def]
  rcases hhandled : kvserverHandle strhash64 indexPage (s.followers (l.addr t.currFollower))
    (request.written.take n) with _ | handled
  · rcases o with _ | w
    · rfl
    · rw [Option.bind_some, hexchange w h.1.1
        (Option.some.inj ((h.2 i).symm.trans (foreseen_unhandled hi))), hhandled]
      rfl
  · rw [Option.map_some]
    have hforeseen : SocketSystem.foreseen strhash64 l { s with
        followers := Function.update s.followers (l.addr t.currFollower) handled.1
        conns := Function.update s.conns i (some ⟨request, some (.start handled.2)⟩) } p i =
        foreseenTxn strhash64 l (s.txns i) (some handled.2) (p i) := by
      simp [foreseen, reply]
    refine h.bind hi (fun j hj => ?_) fun w hshares hw => ?_
    · simp only [foreseen, reply, Function.update_of_ne hj]
    rw [hexchange w hshares.1 hw, hhandled, Option.bind_some, hforeseen]
    rcases foreseenTxn strhash64 l (s.txns i) (some handled.2) (p i) with _ | txn
    · exact .inr ⟨rfl, rfl⟩
    · refine .inl ⟨_, rfl, ⟨by rw [hshares.1], hshares.2⟩,
        fun j hj => Function.update_of_ne hj .., ?_⟩
      simp only [Function.update_self]

theorem Foresees.accept (h : s.Foresees strhash64 l p o) (hi : s.txns i = none → s.reply i = none)
    (sent : List UInt8) :
    Matches strhash64 l p
      ((s.toWireSystem.accept strhash64 l i sent).map fun wire => { s with toWireSystem := wire })
      (o.bind fun w =>
        runOf (LeftSystem.step strhash64 indexPage l) w [.wire (.accept i sent)]) := by
  simp only [runOf_single, LeftSystem.step, WireSystem.step, WireSystem.accept]
  rcases tpcRequest sent with _ | req
  · simp only [Option.bind_eq_bind, Option.bind_some, Option.pure_def, Option.map_some]
    exact (Option.bind_fun_some o).symm ▸ h
  by_cases hsome : (s.txns i).isSome
  · -- A thread that has been used: nothing happens in either system.
    simp only [hsome, if_true, Option.map_some]
    rcases o with _ | w
    · exact h
    · have hw : (w.txns i).isSome := (isSome_of_foreseen (h.2 i)).trans hsome
      simp only [Option.bind_some, hw, if_true]
      exact h
  have hnone : s.txns i = none := by simpa using hsome
  simp only [hsome, Bool.false_eq_true, if_false, Option.bind_eq_bind, Option.pure_def]
  rcases tpcleaderHandleTpc strhash64 l req with _ | thread
  · rcases o with _ | w
    · rfl
    · have hw : (w.txns i).isSome = false := by simp [isSome_of_foreseen (h.2 i), hnone]
      simp only [Option.bind_some, hw, Bool.false_eq_true, if_false, Option.bind_none]
      rfl
  · simp only [Option.bind_some, Option.map_some]
    refine h.bind (hi hnone) (fun j hj => ?_) fun w hfollowers hw => .inl ⟨{ w with
      txns := Function.update w.txns i (some ⟨req, thread⟩) }, ?_, hfollowers,
      fun j hj => Function.update_of_ne hj .., ?_⟩
    · simp only [foreseen, reply, Function.update_of_ne hj]
    · simp [hw, hnone]
    · refine (foreseen_unhandled ?_).trans ?_
      · exact hi hnone
      · simp only [Function.update_self]

/-- A connection changes, but not the reply that is sent over it. -/
theorem Foresees.setConn (h : s.Foresees strhash64 l p o) {c : Conn}
    (hc : c.reply.map (·.message) = s.reply i) :
    ({ s with conns := Function.update s.conns i (some c) } : SocketSystem).Foresees strhash64 l p
      o := by
  refine h.congr ⟨rfl, rfl⟩ fun j => ?_
  by_cases hj : j = i
  · subst hj
    simp only [reply] at hc
    simp only [foreseen, reply, Function.update_self, Option.bind_some, hc]
  · simp only [foreseen, reply, Function.update_of_ne hj]

/-- The leader reads a reply: what was foreseen has come. -/
theorem Foresees.receive (hx : s.txns i = some x) {c : Conn} (hc : s.conns i = some c)
    {sending : SendLoop UInt8} (hreply : c.reply = some sending) {n : ℕ}
    (h : s.Foresees strhash64 l (Function.update p i (min n sending.written.length)) o) :
    Matches strhash64 l p ((contactOf (c.replied.take n)).bind fun con =>
      (x.thread.receive strhash64 l con).map (s.advanced i x)) o := by
  have hread : c.replied.take n = sending.message.take (min n sending.written.length) := by
    rw [Conn.replied, hreply, Option.elim_some, SendLoop.take_written]
  have hforeseen : s.foreseen strhash64 l (Function.update p i (min n sending.written.length)) i =
      (contactOf (c.replied.take n)).bind fun con =>
        (x.thread.receive strhash64 l con).map fun thread => some { x with thread } := by
    simp only [foreseen, reply, hx, hc, hreply, Option.bind_some, Option.map_some, hread,
      Function.update_self, foreseenTxn]
  have hgone :
      s.foreseen strhash64 l (Function.update p i (min n sending.written.length)) i = none →
        o = none := by
    intro hnone
    rcases o with _ | w
    · rfl
    · cases hnone.symm.trans (h.2 i)
  rcases hcon : contactOf (c.replied.take n) with _ | con
  · exact hgone (by rw [hforeseen, hcon, Option.bind_none])
  rw [hcon, Option.bind_some] at hforeseen
  rw [Option.bind_some]
  rcases hrec : x.thread.receive strhash64 l con with _ | thread
  · exact hgone (by rw [hforeseen, hrec, Option.map_none])
  rw [hrec, Option.map_some] at hforeseen
  refine h.congr ⟨rfl, rfl⟩ fun j => ?_
  by_cases hj : j = i
  · subst hj
    rw [hforeseen, foreseen_unhandled (by simp [reply, advanced])]
    simp only [advanced, Function.update_self]
  · simp only [foreseen, reply, advanced, Function.update_of_ne hj]

/-- A request left behind is handled in both systems, or in neither. -/
theorem Foresees.late (h : s.Foresees strhash64 l p o) (k n : ℕ) :
    Matches strhash64 l p ((s.toLeftSystem.late strhash64 indexPage k n).map fun left =>
        { s with toLeftSystem := left })
      (o.bind fun w => runOf (LeftSystem.step strhash64 indexPage l) w [.late k n]) := by
  rcases o with _ | w
  · rcases hlate : s.toLeftSystem.late strhash64 indexPage k n with _ | left
    · rfl
    · obtain ⟨j, hj⟩ := h
      refine ⟨j, Eq.trans ?_ hj⟩
      simp only [foreseen, reply, late_txns hlate]
  · obtain ⟨⟨hfollowers, hleft⟩, htxns⟩ := h
    rw [Option.bind_some, runOf_single, LeftSystem.step]
    unfold LeftSystem.late
    rw [hleft]
    rcases s.left[k]? with _ | r
    · exact ⟨⟨hfollowers, hleft⟩, htxns⟩
    · simp only [hfollowers]
      rcases kvserverHandle strhash64 indexPage (s.followers r.follower) (r.request.take n) with
        _ | handled
      · rfl
      · exact ⟨⟨rfl, rfl⟩, htxns⟩

variable (indexPage) in
/-- Which steps of the other system match an event, and what is foreseen before it, given what is
foreseen after it. -/
theorem Inv.matches (h : Inv strhash64 l s) (e : SocketEvent) (p' : ℕ → ℕ) :
    ∃ (p : ℕ → ℕ) (bs : List LeftEvent), bs.flatMap LeftEvent.occasions = e.occasions ∧
      ∀ o, s.Foresees strhash64 l p o → Matches strhash64 l p' (s.step strhash64 indexPage l e)
        (o.bind fun w => runOf (LeftSystem.step strhash64 indexPage l) w bs) := by
  have hdoes := h.does indexPage e
  generalize s.step strhash64 indexPage l e = next at hdoes ⊢
  cases hdoes with
  | idle he =>
    refine ⟨p', [], he.symm, fun o ho => ?_⟩
    simpa only [runOf, Option.bind_fun_some, Matches] using ho
  | accept i sent =>
    refine ⟨p', [.wire (.accept i sent)], rfl, fun o ho => ho.accept (fun hnone => ?_) sent⟩
    rcases hc : s.conns i with _ | c
    · simp [reply, hc]
    · obtain ⟨x, t, hx, -⟩ := (h i).conn c hc
      cases hnone.symm.trans hx
  | connect i hx ht hc =>
    refine ⟨p', [], rfl, fun o ho => ?_⟩
    simp only [runOf, Option.bind_fun_some]
    exact ho.setConn (by simp [reply, hc])
  | refuse i hx ht hc =>
    refine ⟨p', [.wire (.exchange i .refused)], rfl, fun o ho => ?_⟩
    have hadvance :=
      ho.advance indexPage (by simp [reply, hc]) hx fun w hw => refuse_eq hw ht
    simp only [List.append_nil] at hadvance
    exact hadvance
  | write i r hc =>
    refine ⟨p', [], rfl, fun o ho => ?_⟩
    simp only [runOf, Option.bind_fun_some]
    exact ho.setConn (by simp [reply, hc])
  | handle i n hx ht hc =>
    obtain ⟨x', t', hx', ht', hmsg⟩ := (h i).conn _ hc
    cases hx.symm.trans hx'
    cases ht.symm.trans ht'
    exact ⟨p', _, rfl, fun o ho => ho.handle hx ht hc hmsg⟩
  | respond i r hc =>
    refine ⟨p', [], rfl, fun o ho => ?_⟩
    simp only [runOf, Option.bind_fun_some]
    exact ho.setConn (by simp [reply, hc, Function.comp_def])
  | @giveUp i n x t request hx ht hc =>
    obtain ⟨x', t', hx', ht', hmsg⟩ := (h i).conn _ hc
    cases hx.symm.trans hx'
    cases ht.symm.trans ht'
    have hwritten : request.written =
        ((kvrequestSend t.req).getD []).take request.written.length := by
      have htake := request.take_written request.written.length
      rwa [List.take_length, Nat.min_self, hmsg] at htake
    refine ⟨p', [.giveUp i request.written.length], rfl, fun o ho =>
      ho.advance indexPage (by simp [reply, hc]) hx fun w hw => ?_⟩
    rw [giveUp_eq hw ht, ← hwritten]
  | @receive i n x t c sending hx ht hc hreply =>
    refine ⟨Function.update p' i (min n sending.written.length), [], rfl, fun o ho => ?_⟩
    simp only [runOf, Option.bind_fun_some]
    exact ho.receive hx hc hreply
  | late k n => exact ⟨p', [.late k n], rfl, fun o ho => ho.late k n⟩

/-! ## The result -/

/-- At the end nothing more is read of any reply. -/
theorem Inv.foresees_end (h : Inv strhash64 l s) (ho : s.Foresees strhash64 l (fun _ => 0) o) :
    ∃ w, o = some w ∧ (w.followers = s.followers ∧ w.left = s.left) ∧
      ∀ i, (s.conns i).bind (·.reply) = none → w.txns i = s.txns i := by
  rcases o with _ | w
  · obtain ⟨i, hi⟩ := ho
    unfold foreseen foreseenTxn at hi
    split at hi
    · next x reply hx _ =>
      obtain ⟨thread', hrec⟩ := receive_noReply ((h i).grounded x hx)
      have hcon : contactOf (reply.take 0) = some .noReply := by
        rw [List.take_zero]
        rfl
      rw [hcon, Option.bind_some, hrec] at hi
      cases hi
    · cases hi
  · refine ⟨w, rfl, ho.1, fun i hi => Option.some.inj ((ho.2 i).symm.trans (foreseen_unhandled ?_))⟩
    rcases hc : s.conns i with _ | c
    · simp [reply, hc]
    · rw [hc, Option.bind_some] at hi
      simp [reply, hc, hi]

variable (strhash64 indexPage l) in
/-- A run call by call is matched by one of single steps. -/
theorem run_matched (followers : Addr → KvServer) (events : List SocketEvent) :
    ∃ events' : List LeftEvent,
      events'.flatMap LeftEvent.occasions = events.flatMap SocketEvent.occasions ∧
      Option.Rel (fun s w => (w.followers = s.followers ∧ w.left = s.left) ∧
          ∀ i, (s.conns i).bind (·.reply) = none → w.txns i = s.txns i)
        (runOf (SocketSystem.step strhash64 indexPage l) (.init followers) events)
        (runOf (LeftSystem.step strhash64 indexPage l) (.init followers) events') := by
  have hinit : SocketSystem.Inv strhash64 l (.init followers) := fun i =>
    ⟨fun x hx => (by cases hx), fun c hc => by cases hc⟩
  have hoccasions : ∀ e : SocketEvent, ∃ bs : List LeftEvent,
      bs.flatMap LeftEvent.occasions = e.occasions := by
    rintro (⟨i, sent⟩ | _ | _ | _ | _ | _ | ⟨k, n⟩)
    · exact ⟨[.wire (.accept i sent)], rfl⟩
    iterate 5 exact ⟨[], rfl⟩
    · exact ⟨[.late k n], rfl⟩
  have hstep : ∀ (s : SocketSystem) (e : SocketEvent) (s' : SocketSystem) (p' : ℕ → ℕ),
      s.Inv strhash64 l → s.step strhash64 indexPage l e = some s' →
      ∃ (p : ℕ → ℕ) (bs : List LeftEvent), bs.flatMap LeftEvent.occasions = e.occasions ∧
        ∀ o, s.Foresees strhash64 l p o → s'.Foresees strhash64 l p' (o.bind fun w =>
          runOf (LeftSystem.step strhash64 indexPage l) w bs) := by
    intro s e s' p' hs hnext
    have hmatch := hs.matches indexPage e p'
    rwa [hnext] at hmatch
  have hstop : ∀ (s : SocketSystem) (e : SocketEvent), s.Inv strhash64 l →
      s.step strhash64 indexPage l e = none →
      ∃ (p : ℕ → ℕ) (bs : List LeftEvent), bs.flatMap LeftEvent.occasions = e.occasions ∧
        ∀ o, s.Foresees strhash64 l p o →
          (o.bind fun w => runOf (LeftSystem.step strhash64 indexPage l) w bs) = none := by
    intro s e hs hnext
    have hmatch := hs.matches indexPage e fun _ => 0
    rwa [hnext] at hmatch
  obtain ⟨p, events', hsame, hrun⟩ := run_foreseen hoccasions (fun s e s' hs => hs.step) hstep hstop
    (fun s hs => ⟨fun _ => 0, fun o ho => hs.foresees_end ho⟩) events hinit
  exact ⟨events', hsame, hrun (some (.init followers)) ⟨⟨rfl, rfl⟩, fun i => rfl⟩⟩

end SocketSystem

/-- Where nothing left behind is handled, an exchange that is given up is one of which neither side
reads anything. -/
theorem LeftSystem.run_exchanges (strhash64 : CStr → UInt64) (indexPage : List UInt8)
    (l : TpcLeader) (s : LeftSystem) {events : List LeftEvent}
    (hlate : ∀ k n, .late k n ∉ events) : ∃ events' : List WireEvent,
      events'.flatMap WireEvent.occasions = events.flatMap LeftEvent.occasions ∧
      Option.Rel (fun t w => w = t.toWireSystem)
        (runOf (LeftSystem.step strhash64 indexPage l) s events)
        (runOf (WireSystem.step strhash64 indexPage l) s.toWireSystem events') := by
  refine run_simulates (P := fun e => ∀ k n, e ≠ .late k n) ?_ events ?_ rfl
  · rintro t w e rfl he
    cases e with
    | wire e =>
      refine ⟨[e], List.append_nil _, ?_⟩
      simp only [runOf, Option.bind_fun_some, LeftSystem.step]
      rcases t.toWireSystem.step strhash64 indexPage l e with _ | w
      · exact .none
      · exact .some rfl
    | giveUp i request =>
      refine ⟨[.exchange i (.connected 0 0)], rfl, ?_⟩
      have hnothing (f : KvServer) (req : KvRequest) :
          exchangeBytes strhash64 indexPage f req (.connected 0 0) = some (f, .noReply) := rfl
      simp only [runOf, Option.bind_fun_some, LeftSystem.step, WireSystem.step, LeftSystem.giveUp,
        WireSystem.exchange]
      rcases t.txns i with _ | ⟨call, thread⟩
      · exact .some rfl
      rcases hlocals : thread.locals with _ | locals
      · simp only [hlocals]
        exact .some rfl
      simp only [hlocals, hnothing, Option.bind_eq_bind, Option.bind_some, Function.update_eq_self]
      rcases thread.receive strhash64 l .noReply with _ | thread'
      · exact .none
      · exact .some rfl
    | late k n => exact absurd rfl (he k n)
  · rintro e he k n rfl
    exact hlate k n he

/-- If nothing left behind is ever handled, it is one of whole exchanges. -/
theorem socket_run_exchanges (strhash64 : CStr → UInt64) (indexPage : List UInt8) (l : TpcLeader)
    (followers : Addr → KvServer) {events : List SocketEvent} (hlate : ∀ k n, .late k n ∉ events) :
    ∃ events' : List WireEvent,
      events'.flatMap WireEvent.occasions = events.flatMap SocketEvent.occasions ∧
      Option.Rel (fun s w => w.followers = s.followers ∧
          ∀ i, (s.conns i).bind (·.reply) = none → w.txns i = s.txns i)
        (runOf (SocketSystem.step strhash64 indexPage l) (.init followers) events)
        (runOf (WireSystem.step strhash64 indexPage l) (.init followers) events') := by
  obtain ⟨events', hsame, hrun⟩ := SocketSystem.run_matched strhash64 indexPage l followers events
  have hlate' : ∀ k n, .late k n ∉ events' := by
    intro k n hmem
    have hoccasions : Occasion.late k n ∈ events.flatMap SocketEvent.occasions :=
      hsame ▸ List.mem_flatMap.2 ⟨_, hmem, List.mem_singleton_self _⟩
    obtain ⟨e, he, hoccasions⟩ := List.mem_flatMap.1 hoccasions
    cases e with
    | late k' n' =>
      cases List.mem_singleton.1 hoccasions
      exact hlate _ _ he
    | accept i sent => cases List.mem_singleton.1 hoccasions
    | _ => cases hoccasions
  obtain ⟨whole, hsame', hwhole⟩ :=
    LeftSystem.run_exchanges strhash64 indexPage l (.init followers) hlate'
  refine ⟨whole, hsame'.trans hsame, ?_⟩
  generalize runOf (SocketSystem.step strhash64 indexPage l) _ events = s at hrun ⊢
  generalize runOf (LeftSystem.step strhash64 indexPage l) _ events' = t at hrun hwhole
  change Option.Rel _ _ (runOf _ (LeftSystem.init followers).toWireSystem whole)
  generalize runOf (WireSystem.step strhash64 indexPage l) _ whole = w at hwhole ⊢
  rcases hrun with ⟨hshares, htxns⟩ | _ <;> rcases hwhole with rfl | _
  · exact .some ⟨hshares.1, htxns⟩
  · exact .none

end Cs162
