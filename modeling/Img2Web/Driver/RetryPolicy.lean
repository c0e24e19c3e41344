/-!
The retry policies: what becomes of a request when the server answers that it
could not reach enough replicas. `DowngradingConsistencyRetryPolicy` asks again
with a consistency that is likely to work.
-/

namespace Img2Web.Driver

namespace Consistency

/-! `CassConsistency`. The server's answers have any 16 bits. -/

def one : Nat := 0x0001
def two : Nat := 0x0002
def three : Nat := 0x0003
def serial : Nat := 0x0008
def localSerial : Nat := 0x0009
def unknown : Nat := 0xFFFF

end Consistency

inductive WriteType where
  | unknown
  | simple
  | batch
  | unloggedBatch
  | counter
  | batchLog
  | cas
  deriving DecidableEq

inductive RetryDecision where
  | returnError
  | retry (consistency : Nat) (currentHost : Bool)
  | ignore
  deriving DecidableEq

inductive RetryPolicy where
  | default
  | downgrading
  | fallthrough
  | logging (retryPolicy : RetryPolicy)

namespace RetryPolicy

def maxLikelyToWork (received : Int) : RetryDecision :=
  if 3 ≤ received then .retry Consistency.three true
  else if received = 2 then .retry Consistency.two true
  else if received = 1 then .retry Consistency.one true
  else .returnError

def onReadTimeout (consistency : Nat) (received required : Int) (dataReceived : Bool)
    (numRetries : Nat) : RetryPolicy → RetryDecision
  | .default =>
      if numRetries ≠ 0 then .returnError
      else if required ≤ received ∧ dataReceived = false then .retry consistency true
      else .returnError
  | .downgrading =>
      if numRetries ≠ 0 then .returnError
      else if consistency = Consistency.serial ∨ consistency = Consistency.localSerial then
        .returnError
      else if received < required then maxLikelyToWork received
      else if dataReceived = false then .retry consistency true
      else .returnError
  | .fallthrough => .returnError
  | .logging policy => policy.onReadTimeout consistency received required dataReceived numRetries

def onWriteTimeout (consistency : Nat) (received : Int) (writeType : WriteType)
    (numRetries : Nat) : RetryPolicy → RetryDecision
  | .default =>
      if numRetries ≠ 0 then .returnError
      else if writeType = .batchLog then .retry consistency true
      else .returnError
  | .downgrading =>
      if numRetries ≠ 0 then .returnError
      else
        match writeType with
        | .simple | .batch => if 0 < received then .ignore else .returnError
        | .unloggedBatch => maxLikelyToWork received
        | .batchLog => .retry consistency true
        | _ => .returnError
  | .fallthrough => .returnError
  | .logging policy => policy.onWriteTimeout consistency received writeType numRetries

def onUnavailable (consistency : Nat) (alive : Int) (numRetries : Nat) :
    RetryPolicy → RetryDecision
  | .default => if numRetries = 0 then .retry consistency false else .returnError
  | .downgrading => if numRetries ≠ 0 then .returnError else maxLikelyToWork alive
  | .fallthrough => .returnError
  | .logging policy => policy.onUnavailable consistency alive numRetries

/-! No policy retries a request that it was asked about before. -/

variable {consistency numRetries : Nat} {received required alive : Int} {dataReceived : Bool}
  {writeType : WriteType}

theorem onReadTimeout_again (policy : RetryPolicy) (h : numRetries ≠ 0) :
    policy.onReadTimeout consistency received required dataReceived numRetries = .returnError := by
  induction policy with
  | default => rw [onReadTimeout, if_pos h]
  | downgrading => rw [onReadTimeout, if_pos h]
  | fallthrough => rfl
  | logging policy ih => exact ih

theorem onWriteTimeout_again (policy : RetryPolicy) (h : numRetries ≠ 0) :
    policy.onWriteTimeout consistency received writeType numRetries = .returnError := by
  induction policy with
  | default => rw [onWriteTimeout, if_pos h]
  | downgrading => simp [onWriteTimeout, h]
  | fallthrough => rfl
  | logging policy ih => exact ih

theorem onUnavailable_again (policy : RetryPolicy) (h : numRetries ≠ 0) :
    policy.onUnavailable consistency alive numRetries = .returnError := by
  induction policy with
  | default => rw [onUnavailable, if_neg h]
  | downgrading => rw [onUnavailable, if_pos h]
  | fallthrough => rfl
  | logging policy ih => exact ih

end RetryPolicy

end Img2Web.Driver
