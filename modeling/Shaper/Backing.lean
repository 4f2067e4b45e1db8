/-! Where the pages of a range lie on storage. -/
namespace Shaper.Backing

inductive DataDist where
  | replicate | stripe
  deriving DecidableEq

def ALL_CTRLS : Nat := 0xffffffffffffffff

def getBackingPage (pageStart pageOffset nCtrls : Nat) : DataDist → Nat
  | .stripe => pageStart+pageOffset/nCtrls
  | .replicate => pageStart+pageOffset

def getBackingCtrl (pageOffset nCtrls : Nat) : DataDist → Nat
  | .stripe => pageOffset%nCtrls
  | .replicate => ALL_CTRLS

end Shaper.Backing
