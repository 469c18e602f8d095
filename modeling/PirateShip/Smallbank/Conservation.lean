import Mathlib.Algebra.BigOperators.Group.Finset.Basic
import Mathlib.Algebra.BigOperators.Group.Finset.Piecewise
import Mathlib.Algebra.Ring.Int.Defs
import PirateShip.Lib.Run
import PirateShip.Lib.Splice
import PirateShip.Smallbank.Frontend

/-! Money under concurrent payments: every balance is its first value and the
transfers of the swaps that went through. -/

set_option autoImplicit false

namespace PirateShip.Smallbank

open List StepSystem Option

variable {value sendThreshold : Int} {attempts : Attempts} {users : Finset String}

/-!
## Accounts and numbers
-/

theorem checkingAccount_injective {user other} : checkingAccount user = checkingAccount other ↔ user = other := by
  rw [checkingAccount, checkingAccount, toUTF8_append, toUTF8_append, append_cancel_left_eq, toUTF8_inj]

theorem savingsAccount_ne_checkingAccount (user other) : savingsAccount user ≠ checkingAccount other := by
  intro same
  have heads := congrArg List.head? same
  have savings : "savings:".toUTF8.data.toList.head? = some 115 := by decide +kernel
  have checking : "checking:".toUTF8.data.toList.head? = some 99 := by decide +kernel
  simp only [savingsAccount, checkingAccount, toUTF8_append, head?_append, savings, checking,
    some_or, some.injEq] at heads
  exact absurd heads (by decide)

theorem i64FromBeBytes_i64ToBeBytes (low : -2 ^ 63 ≤ value) (high : value < 2 ^ 63) :
    i64FromBeBytes (i64ToBeBytes value) = some value := by
  have decoded : fromBeBytes (toBeBytes (value % 2 ^ 64).toNat) = (value % 2 ^ 64).toNat :=
    fromBeBytes_toBeBytes (by omega)
  simp only [i64FromBeBytes, i64ToBeBytes, KVSState.i64FromBeBytes, length_toBeBytes, if_true, map_some]
  simp only [Int.bmod_def]
  split <;> congr 1 <;> omega

theorem i64ToBeBytes_ne_nil (value) : i64ToBeBytes value ≠ [] := by
  simp [i64ToBeBytes, toBeBytes]

/-- What an account holds; an account that does not exist holds nothing. -/
def balance (state : KVSState) (account : Bytes) : Int :=
  ((state.read account).bind i64FromBeBytes).getD 0

theorem balance_of_read {state account} (stored : state.read account = some (i64ToBeBytes value))
    (low : -2 ^ 63 ≤ value) (high : value < 2 ^ 63) :
    balance state account = value := by
  rw [balance, stored, bind_some, i64FromBeBytes_i64ToBeBytes low high, getD_some]

theorem balance_push (state n account other) (low : -2 ^ 63 ≤ value) (high : value < 2 ^ 63) :
    balance (state.push n account (i64ToBeBytes value)) other =
      if other = account then value else balance state other := by
  rw [balance, KVSState.read_push]
  split
  · rw [bind_some, i64FromBeBytes_i64ToBeBytes low high, getD_some]
  · rfl

/-!
## One swap
-/

def SendPayload.transfer (payload : SendPayload) (account : Bytes) : Int :=
  (if account = checkingAccount payload.receiverAccount then payload.sendAmount else 0) -
    (if account = checkingAccount payload.senderAccount then payload.sendAmount else 0)

structure SendPayload.Payable (payload : SendPayload) (senderBalance receiverBalance : Int) : Prop where
  distinct : payload.senderAccount ≠ payload.receiverAccount
  positive : 0 < payload.sendAmount
  covered : payload.sendAmount ≤ senderBalance
  sender_lt : senderBalance < 2 ^ 63
  receiver_ge : -2 ^ 63 ≤ receiverBalance
  sum_lt : receiverBalance + payload.sendAmount < 2 ^ 63

def credited (state : KVSState) (n : Nat) (payload : SendPayload) (senderBalance receiverBalance : Int) : KVSState :=
  (state.push n (checkingAccount payload.receiverAccount)
    (i64ToBeBytes (receiverBalance + payload.sendAmount))).push n
    (checkingAccount payload.senderAccount) (i64ToBeBytes (senderBalance - payload.sendAmount))

theorem crashCommitTx_creditTx (state n payload senderBalance receiverBalance) :
    (∃ values, state.crashCommitTx n (creditTx payload senderBalance receiverBalance) =
      some (state, { result := [{ success := false, values }] })) ∨
    state.read (checkingAccount payload.receiverAccount) = some (i64ToBeBytes receiverBalance) ∧
      state.read (checkingAccount payload.senderAccount) = some (i64ToBeBytes senderBalance) ∧
      state.crashCommitTx n (creditTx payload senderBalance receiverBalance) =
        some (credited state n payload senderBalance receiverBalance, { result :=
              [{ success := true, values := [i64ToBeBytes receiverBalance, i64ToBeBytes senderBalance] }] }) := by
  have stored {account : Bytes} {value : Int} (same : (state.read account).getD [] = i64ToBeBytes value) :
      state.read account = some (i64ToBeBytes value) := by
    cases found : state.read account with
    | none => exact absurd (by simpa [found] using same.symm) (i64ToBeBytes_ne_nil value)
    | some bytes => simpa [found] using same
  have computed : state.crashCommitTx n (creditTx payload senderBalance receiverBalance) =
      some ((state.cas n (creditOp payload senderBalance receiverBalance).operands).1,
        { result := (state.cas n (creditOp payload senderBalance receiverBalance).operands).2 }) := by
    simp [KVSState.crashCommitTx, creditTx, commitEach, KVSState.crashCommitOp, creditOp,
      ProtoTransactionOpType.fromI32]
  rw [computed]
  by_cases receiver : (state.read (checkingAccount payload.receiverAccount)).getD [] = i64ToBeBytes receiverBalance
  · by_cases sender : (state.read (checkingAccount payload.senderAccount)).getD [] = i64ToBeBytes senderBalance
    · right
      refine ⟨stored receiver, stored sender, ?_⟩
      simp [KVSState.cas, KVSState.casOps, creditOp, receiver, sender, credited]
    · left
      simp [KVSState.cas, KVSState.casOps, creditOp, sender]
  · left
    simp [KVSState.cas, KVSState.casOps, creditOp, receiver]

variable {state : KVSState} {payload : SendPayload} {senderBalance receiverBalance : Int}

theorem balance_credited (n) (payable : payload.Payable senderBalance receiverBalance)
    (receiver : balance state (checkingAccount payload.receiverAccount) = receiverBalance)
    (sender : balance state (checkingAccount payload.senderAccount) = senderBalance) (account) :
    balance (credited state n payload senderBalance receiverBalance) account =
      balance state account + payload.transfer account := by
  obtain ⟨distinct, _, _, _, _, sum_lt⟩ := payable
  have apart : checkingAccount payload.senderAccount ≠ checkingAccount payload.receiverAccount :=
    fun same => distinct (checkingAccount_injective.mp same)
  rw [credited, balance_push _ _ _ _ (by omega) (by omega), balance_push _ _ _ _ (by omega) sum_lt,
    SendPayload.transfer]
  by_cases isSender : account = checkingAccount payload.senderAccount
  · subst isSender
    simp [apart]
    omega
  · by_cases isReceiver : account = checkingAccount payload.receiverAccount
    · subst isReceiver
      simp [isSender, receiver]
    · simp [isSender, isReceiver]

/-!
## Runs
-/

def HttpResponse.isOk : HttpResponse → Bool
  | .ok .. => true
  | _ => false

def Phase.Fits (payload : SendPayload) (moved : Prop) : Phase → Prop
  | .reading _ => 0 < payload.sendAmount ∧ ¬ moved
  | .swapping _ senderBalance receiverBalance => payload.Payable senderBalance receiverBalance ∧ ¬ moved
  | .probing _ result => result.length = 2 ∧ moved
  | .abandoned senderBalance receiverBalance response =>
    payload.Payable senderBalance receiverBalance ∧ response.isOk = false ∧ ¬ moved
  | .answered response => response.isOk → moved

theorem isOk_of_receive {answer response} (failed : receive answer = .error response) : response.isOk = false := by
  unfold receive at failed
  repeat' split at failed
  all_goals cases failed
  all_goals rfl

theorem fits_sendpayment (payload) {moved} (notMoved : ¬ moved) : (sendpayment payload).Fits payload moved := by
  unfold sendpayment
  split
  · simp [Phase.Fits, HttpResponse.isOk]
  · exact ⟨by omega, notMoved⟩

def Bank.Payable (bank : Bank) (payload : SendPayload) : Prop :=
  payload.sendAmount ≤ balance bank.engine.state (checkingAccount payload.senderAccount) →
    payload.senderAccount ≠ payload.receiverAccount ∧
      balance bank.engine.state (checkingAccount payload.receiverAccount) + payload.sendAmount < 2 ^ 63

theorem receive_getBalances (engine : KVSAppEngine) (payload : SendPayload) :
    receive (.receipt (some (engine.handleUnloggedRequest (getBalancesTx payload))) 0) = .ok ([], none) ∨
    ∃ sender receiver, engine.state.read (checkingAccount payload.senderAccount) = some sender ∧
      engine.state.read (checkingAccount payload.receiverAccount) = some receiver ∧
      receive (.receipt (some (engine.handleUnloggedRequest (getBalancesTx payload))) 0) =
        .ok ([sender, receiver], some 0) := by
  cases sent : engine.state.read (checkingAccount payload.senderAccount) <;>
    cases received : engine.state.read (checkingAccount payload.receiverAccount) <;>
      simp [receive, KVSAppEngine.handleUnloggedRequest, getBalancesTx, readOp, sent, received]

variable (positive : 0 < payload.sendAmount)
include positive

theorem fits_onRead {bank : Bank} {moved : Prop} (payable : bank.Payable payload) (notMoved : ¬ moved) :
    (onRead payload attempts
      (.receipt (some (bank.engine.handleUnloggedRequest (getBalancesTx payload))) 0)).Fits payload moved := by
  unfold onRead
  obtain nothing | ⟨_, _, sent, received, both⟩ := receive_getBalances bank.engine payload
  · simp [nothing, afterRead, Phase.Fits, HttpResponse.isOk]
  · simp only [both, afterRead]
    split
    · next senderBalance receiverBalance senderIs receiverIs =>
      split
      · simp [Phase.Fits, HttpResponse.isOk]
      · next _ =>
        have atSender : balance bank.engine.state (checkingAccount payload.senderAccount) = senderBalance := by
          simp [balance, sent, senderIs]
        have atReceiver : balance bank.engine.state (checkingAccount payload.receiverAccount) = receiverBalance := by
          simp [balance, received, receiverIs]
        obtain ⟨distinct, _⟩ := payable (by omega)
        have senderRange := i64FromBeBytes_range senderIs
        have receiverRange := i64FromBeBytes_range receiverIs
        exact ⟨⟨distinct, positive, by omega, senderRange.2, receiverRange.1, by omega⟩, notMoved⟩
    · simp [Phase.Fits, HttpResponse.isOk]

theorem fits_afterSwap {result moved} (went : result.length = 2 ↔ moved) :
    (afterSwap sendThreshold payload attempts result).Fits payload moved := by
  unfold afterSwap
  split
  · next two => exact fun _ => went.mp two
  · next notTwo =>
    split
    · simp [Phase.Fits, HttpResponse.isOk]
    · exact ⟨positive, fun isMoved => notTwo (went.mpr isMoved)⟩

theorem fits_onSwap {success values blockN moved} (two : success = true → values.length = 2)
    (went : success = true ↔ moved) :
    (onSwap sendThreshold payload attempts (.receipt (some { result := [{ success, values }] }) blockN)).Fits
      payload moved := by
  cases success with
  | false =>
    have answers : onSwap sendThreshold payload attempts
        (.receipt (some { result := [{ success := false, values }] }) blockN) =
        afterSwap sendThreshold payload attempts [] := by
      simp [onSwap, receive]
    rw [answers]
    exact fits_afterSwap positive (by simpa using went)
  | true =>
    have read : receive (.receipt (some { result := [{ success := true, values }] }) blockN) =
        .ok (values, some blockN) := by
      simp [receive]
    simp only [onSwap, read]
    split
    · exact ⟨two rfl, went.mp rfl⟩
    · exact fits_afterSwap positive ⟨fun _ => went.mp rfl, fun _ => two rfl⟩

omit positive

def Bank.payloads (bank : Bank) : List SendPayload := bank.requests.map (·.payload)

/-- What the payments of some requests do to an account together. -/
def transferred (payloads : List SendPayload) (moved : List Nat) (account : Bytes) : Int :=
  (moved.map fun i => ((payloads[i]?).map fun payload => payload.transfer account).getD 0).sum

structure Safe (start bank : Bank) : Prop where
  payloads : bank.payloads = start.payloads
  nonneg : ∀ user, 0 ≤ balance bank.engine.state (checkingAccount user) ∧
    0 ≤ balance bank.engine.state (savingsAccount user)
  once : bank.moved.Nodup
  fits : ∀ i (request : Request), bank.requests[i]? = some request →
    request.phase.Fits request.payload (i ∈ bank.moved)
  effect : ∀ account, balance bank.engine.state account =
    balance start.engine.state account + transferred start.payloads bank.moved account

section Step

variable {start bank after : Bank} {i blockN : Nat} {phase next : Phase}

theorem payloads_set (found : bank.requests[i]? = some { payload, phase }) :
    (bank.requests.set i { payload, phase := next }).map (·.payload) = bank.payloads := by
  have atPayload : bank.payloads[i]? = some payload := by simp [Bank.payloads, found]
  obtain ⟨inBounds, same⟩ := List.getElem?_eq_some_iff.mp atPayload
  rw [map_set, ← same]
  exact set_getElem_self inBounds

theorem Safe.setPhase (safe : Safe start bank) (found : bank.requests[i]? = some { payload, phase })
    (fits : next.Fits payload (i ∈ bank.moved)) : Safe start (bank.setPhase i payload next) where
  payloads := (payloads_set found).trans safe.payloads
  nonneg := safe.nonneg
  once := safe.once
  fits := forall_getElem?_set (fun j other at_j _ => safe.fits j other at_j) fits
  effect := safe.effect

theorem transferred_append (payloads moved account) (found : payloads[i]? = some payload) :
    transferred payloads (moved ++ [i]) account = transferred payloads moved account + payload.transfer account := by
  simp [transferred, found]

theorem Safe.credit (safe : Safe start bank) (found : bank.requests[i]? = some { payload, phase })
    (payable : payload.Payable senderBalance receiverBalance) (notMoved : i ∉ bank.moved)
    (receiver : bank.engine.state.read (checkingAccount payload.receiverAccount) =
      some (i64ToBeBytes receiverBalance))
    (sender : bank.engine.state.read (checkingAccount payload.senderAccount) = some (i64ToBeBytes senderBalance))
    (fits : next.Fits payload True) :
    Safe start
      { engine := { bank.engine with state := credited bank.engine.state blockN payload senderBalance receiverBalance }
        requests := bank.requests.set i { payload, phase := next }
        moved := bank.moved ++ [i] } := by
  have atReceiver := balance_of_read receiver payable.receiver_ge
    (by have := payable.sum_lt; have := payable.positive; omega)
  have atSender := balance_of_read sender (by have := payable.covered; have := payable.positive; omega)
    payable.sender_lt
  have changed := balance_credited blockN payable atReceiver atSender
  refine ⟨(payloads_set found).trans safe.payloads, fun user => ⟨?_, ?_⟩, ?_, ?_, fun account => ?_⟩
  · rw [changed]
    have before := (safe.nonneg user).1
    have positive := payable.positive
    have covered := payable.covered
    unfold SendPayload.transfer
    by_cases isSender : checkingAccount user = checkingAccount payload.senderAccount
    · rw [isSender]
      split <;> omega
    · split <;> omega
  · rw [changed]
    have notSender := savingsAccount_ne_checkingAccount user payload.senderAccount
    have notReceiver := savingsAccount_ne_checkingAccount user payload.receiverAccount
    simpa [SendPayload.transfer, notSender, notReceiver] using (safe.nonneg user).2
  · rw [nodup_append]
    refine ⟨safe.once, nodup_singleton i, fun j member other isThis same => notMoved ?_⟩
    rwa [← mem_singleton.mp isThis, ← same]
  · refine forall_getElem?_set (fun j other at_j differs => ?_) ?_
    · have same : j ∈ bank.moved ++ [i] ↔ j ∈ bank.moved := by simp [differs]
      rw [propext same]
      exact safe.fits j other at_j
    · simpa using fits
  · have atPayload : start.payloads[i]? = some payload := by
      rw [← safe.payloads]
      simp [Bank.payloads, found]
    rw [changed, safe.effect, transferred_append _ _ _ atPayload, Int.add_assoc]

theorem Safe.swap {following} (safe : Safe start bank) (found : bank.requests[i]? = some { payload, phase })
    (payable : payload.Payable senderBalance receiverBalance) (notMoved : i ∉ bank.moved)
    (fits : ∀ success values (moved : Prop), (success = true → values.length = 2) → (success = true ↔ moved) →
      (following (.receipt (some { result := [{ success, values }] }) blockN)).Fits payload moved)
    (taken : bank.swap i blockN payload senderBalance receiverBalance following = some after) :
    Safe start after := by
  unfold Bank.swap at taken
  obtain ⟨values, failed⟩ | ⟨receiver, sender, credited⟩ :=
    crashCommitTx_creditTx bank.engine.state blockN payload senderBalance receiverBalance
  · rw [failed] at taken
    simp only [map_some, some.injEq] at taken
    subst taken
    exact safe.setPhase found (fits false values _ (by simp) (by simpa using notMoved))
  · rw [credited] at taken
    simp only [map_some, some.injEq] at taken
    subst taken
    exact safe.credit found payable notMoved receiver sender (fits true _ _ (fun _ => rfl) (by simp))

instance (bank : Bank) (payload : SendPayload) : Decidable (bank.Payable payload) :=
  inferInstanceAs (Decidable (_ → _))

def Sound (bank : Bank) : Event → Prop
  | .read i => ∀ request ∈ bank.requests[i]?, bank.Payable request.payload
  | _ => True

instance (bank : Bank) : (event : Event) → Decidable (Sound bank event)
  | .read i => inferInstanceAs (Decidable (∀ request ∈ bank.requests[i]?, bank.Payable request.payload))
  | .swap .. | .probe _ | .lose .. => isTrue trivial

theorem Safe.step {sendThreshold event} (safe : Safe start bank) (sound : Sound bank event)
    (taken : bank.step sendThreshold event = some after) : Safe start after := by
  cases event with
  | read i =>
    simp only [Bank.step] at taken
    split at taken
    · next payload attempts found =>
      obtain rfl := some.inj taken
      obtain ⟨positive, notMoved⟩ := safe.fits i _ found
      have payable : bank.Payable payload := sound { payload, phase := .reading attempts } found
      exact safe.setPhase found (fits_onRead positive payable notMoved)
    · cases taken
  | swap i blockN =>
    simp only [Bank.step] at taken
    split at taken
    · next payload attempts senderBalance receiverBalance found =>
      obtain ⟨payable, notMoved⟩ := safe.fits i _ found
      exact safe.swap found payable notMoved (fun _ _ _ => fits_onSwap payable.positive) taken
    · next payload senderBalance receiverBalance response found =>
      obtain ⟨payable, notOk, notMoved⟩ := safe.fits i _ found
      refine safe.swap found payable notMoved ?_ taken
      intro _ _ _ _ _ isOk
      exact absurd isOk (by simp [notOk])
    · cases taken
  | probe i =>
    simp only [Bank.step] at taken
    split at taken
    · next payload attempts _ found =>
      obtain rfl := some.inj taken
      obtain ⟨two, isMoved⟩ := safe.fits i _ found
      -- Both values of the swap are at hand, so the probe is not followed by another attempt.
      refine safe.setPhase found ?_
      simpa [afterSwap, two, Phase.Fits] using fun _ => isMoved
    · cases taken
  | lose i answer =>
    simp only [Bank.step] at taken
    split at taken
    · next payload attempts response found failed =>
      obtain rfl := some.inj taken
      refine safe.setPhase found ?_
      simp [Phase.Fits, isOk_of_receive failed]
    · next payload attempts senderBalance receiverBalance response found failed =>
      obtain rfl := some.inj taken
      obtain ⟨payable, notMoved⟩ := safe.fits i _ found
      exact safe.setPhase found ⟨payable, isOk_of_receive failed, notMoved⟩
    · cases taken

end Step

/-- Nothing has been done yet, and no account is overdrawn. -/
structure Started (bank : Bank) : Prop where
  phases : ∀ request ∈ bank.requests, request.phase = sendpayment request.payload
  moved : bank.moved = []
  nonneg : ∀ user, 0 ≤ balance bank.engine.state (checkingAccount user) ∧
    0 ≤ balance bank.engine.state (savingsAccount user)

theorem Started.safe {start} (started : Started start) : Safe start start where
  payloads := rfl
  nonneg := started.nonneg
  once := by simp [started.moved]
  fits i request found := by
    rw [started.phases request (mem_of_getElem? found)]
    exact fits_sendpayment request.payload (by simp [started.moved])
  effect account := by simp [started.moved, transferred]

/-!
## The sum
-/

def Bank.total (bank : Bank) (users : Finset String) : Int :=
  ∑ user ∈ users, (balance bank.engine.state (checkingAccount user) + balance bank.engine.state (savingsAccount user))

theorem sum_transfer (payload : SendPayload) (sender : payload.senderAccount ∈ users)
    (receiver : payload.receiverAccount ∈ users) :
    ∑ user ∈ users, (payload.transfer (checkingAccount user) + payload.transfer (savingsAccount user)) = 0 := by
  have perUser (user : String) : payload.transfer (checkingAccount user) + payload.transfer (savingsAccount user) =
      (if user = payload.receiverAccount then payload.sendAmount else 0) -
        (if user = payload.senderAccount then payload.sendAmount else 0) := by
    simp [SendPayload.transfer, checkingAccount_injective, savingsAccount_ne_checkingAccount]
  simp [perUser, sender, receiver]

theorem sum_transferred {payloads}
    (members : ∀ payload ∈ payloads, payload.senderAccount ∈ users ∧ payload.receiverAccount ∈ users) (moved) :
    ∑ user ∈ users, (transferred payloads moved (checkingAccount user) +
      transferred payloads moved (savingsAccount user)) = 0 := by
  induction moved with
  | nil => simp [transferred]
  | cons i moved ih =>
    have first : ∑ user ∈ users, (((payloads[i]?).map fun payload => payload.transfer (checkingAccount user)).getD 0 +
          ((payloads[i]?).map fun payload => payload.transfer (savingsAccount user)).getD 0) = 0 := by
      cases found : payloads[i]? with
      | none => simp
      | some payload =>
        obtain ⟨sender, receiver⟩ := members payload (mem_of_getElem? found)
        exact sum_transfer payload sender receiver
    calc
      _ = ∑ user ∈ users, ((((payloads[i]?).map fun payload => payload.transfer (checkingAccount user)).getD 0 +
            ((payloads[i]?).map fun payload => payload.transfer (savingsAccount user)).getD 0) +
            (transferred payloads moved (checkingAccount user) + transferred payloads moved (savingsAccount user))) :=
        Finset.sum_congr rfl fun user _ => by
          simp only [transferred, map_cons, sum_cons]
          omega
      _ = 0 := by rw [Finset.sum_add_distrib, first, ih, Int.add_zero]

/-- The whole of a run so far: no money is made or lost, no account is
overdrawn, and the balances are those after one transfer for each request in
`moved`, among them all that have answered with success. -/
structure Conserved (start bank : Bank) : Prop where
  total : ∀ users : Finset String,
    (∀ payload ∈ start.payloads, payload.senderAccount ∈ users ∧ payload.receiverAccount ∈ users) →
      bank.total users = start.total users
  nonneg : ∀ user, 0 ≤ balance bank.engine.state (checkingAccount user) ∧
    0 ≤ balance bank.engine.state (savingsAccount user)
  payloads : bank.payloads = start.payloads
  once : bank.moved.Nodup
  moved_of_success : ∀ i payload response, bank.requests[i]? = some { payload, phase := .answered response } →
    response.isOk → i ∈ bank.moved
  effect : ∀ account, balance bank.engine.state account =
    balance start.engine.state account + transferred start.payloads bank.moved account

theorem Safe.conserved {start bank} (safe : Safe start bank) : Conserved start bank where
  total users members := by
    have sum := sum_transferred members bank.moved
    simp only [Bank.total, safe.effect]
    calc
      _ = ∑ user ∈ users, ((balance start.engine.state (checkingAccount user) +
            balance start.engine.state (savingsAccount user)) +
            (transferred start.payloads bank.moved (checkingAccount user) +
              transferred start.payloads bank.moved (savingsAccount user))) :=
        Finset.sum_congr rfl fun user _ => by omega
      _ = _ := by rw [Finset.sum_add_distrib, sum, Int.add_zero]
  nonneg := safe.nonneg
  payloads := safe.payloads
  once := safe.once
  moved_of_success i _ _ found isOk := safe.fits i _ found isOk
  effect := safe.effect

/-- Payments conserve money while no sender that can pay sends to their own
account, and no receiver's balance grows out of `i64`. -/
theorem conserved_of_reaches {sendThreshold : Int} {start bank : Bank} (started : Started start)
    (reached : Reaches (Bank.step sendThreshold) Sound start bank) : Conserved start bank :=
  (reached.invariant (motive := Safe start) started.safe fun safe sound taken => safe.step sound taken).conserved

def twoUsers (alice bob : Int) (payloads : List SendPayload) : Bank where
  engine :=
    { state :=
      { ciState := fun _ => []
        bciState := fun key =>
          if key = checkingAccount "alice" then some (i64ToBeBytes alice)
          else if key = checkingAccount "bob" then some (i64ToBeBytes bob)
          else none } }
  requests := payloads.map fun payload => { payload, phase := sendpayment payload }

theorem started_twoUsers {alice bob} (payloads) (alice_nonneg : 0 ≤ alice) (alice_lt : alice < 2 ^ 63)
    (bob_nonneg : 0 ≤ bob) (bob_lt : bob < 2 ^ 63) :
    Started (twoUsers alice bob payloads) where
  phases request member := by
    obtain ⟨_, _, rfl⟩ := mem_map.mp member
    rfl
  moved := rfl
  nonneg user := by
    have nonneg (account : Bytes) : 0 ≤ balance (twoUsers alice bob payloads).engine.state account := by
      simp only [balance, twoUsers, KVSState.read, getLast?_nil]
      split
      · simpa [i64FromBeBytes_i64ToBeBytes (by omega) alice_lt]
      · split
        · simpa [i64FromBeBytes_i64ToBeBytes (by omega) bob_lt]
        · simp
    exact ⟨nonneg _, nonneg _⟩

def crossing : Bank := twoUsers 100 50 [⟨"alice", "bob", 30⟩, ⟨"bob", "alice", 10⟩]

theorem conserved_crossing :
    ∃ bank, (Reaches (Bank.step 1000) Sound crossing bank ∧ bank.moved = [0, 1]) ∧ Conserved crossing bank := by
  obtain ⟨bank, reached, both⟩ :
      ∃ bank, Reaches (Bank.step 1000) Sound crossing bank ∧ bank.moved = [0, 1] :=
    exists_reaches [.read 0, .read 1, .swap 0 1, .swap 1 2, .read 1, .swap 1 3] (by decide +kernel)
      (by decide +kernel)
  have started : Started crossing :=
    started_twoUsers _ (by decide) (by decide) (by decide) (by decide)
  exact ⟨bank, ⟨reached, both⟩, conserved_of_reaches started reached⟩

/-- A payment to one's own account is debited only. A credit beyond `i64` makes
the receiver's balance negative. Both payments are answered with success. -/
theorem money_lost :
    (Started (twoUsers 100 50 [⟨"alice", "alice", 30⟩]) ∧
      (twoUsers 100 50 [⟨"alice", "alice", 30⟩]).total {"alice", "bob"} = 150 ∧
      ∃ bank, Reaches (Bank.step 1000) Any (twoUsers 100 50 [⟨"alice", "alice", 30⟩]) bank ∧
        bank.requests.map (·.phase) = [.answered (.ok "sent $30 successfully from alice to alice" [] 1 1000)] ∧
        bank.total {"alice", "bob"} = 120) ∧
    (Started (twoUsers 1 (2 ^ 63 - 1) [⟨"alice", "bob", 1⟩]) ∧
      (twoUsers 1 (2 ^ 63 - 1) [⟨"alice", "bob", 1⟩]).total {"alice", "bob"} = 2 ^ 63 ∧
      ∃ bank, Reaches (Bank.step 1000) Any (twoUsers 1 (2 ^ 63 - 1) [⟨"alice", "bob", 1⟩]) bank ∧
        bank.requests.map (·.phase) = [.answered (.ok "sent $1 successfully from alice to bob" [] 1 1000)] ∧
        balance bank.engine.state (checkingAccount "bob") = -2 ^ 63 ∧ bank.total {"alice", "bob"} = -2 ^ 63) := by
  constructor
  · refine ⟨started_twoUsers _ (by decide) (by decide) (by decide) (by decide), by decide +kernel, ?_⟩
    exact exists_reaches_any [.read 0, .swap 0 1] (by decide +kernel)
  · refine ⟨started_twoUsers _ (by decide) (by decide) (by decide) (by decide), by decide +kernel, ?_⟩
    exact exists_reaches_any [.read 0, .swap 0 1] (by decide +kernel)

end PirateShip.Smallbank
