/-! Failures.

An operation that does not answer either reports an error or crashes. A crash is
no error: no caller can handle it as one, so it passes through every layer
unchanged. -/
namespace PoolScaling

inductive Failure (ε : Type) where
  | error (e : ε)
  | crash
  deriving Repr, DecidableEq

/-- Wraps the reported error of a failure. -/
def Failure.map {ε δ : Type} (f : ε → δ) : Failure ε → Failure δ
  | error e => .error (f e)
  | crash => .crash

end PoolScaling
