/-
Accounting for changes of usage along a chain.  A change is checked against the
quotas of the inodes above it, the deepest first, and then entered as pending at
the inode it happened below.
-/
import QuotaTree.Transaction

namespace QuotaTree

namespace Chain

/-- The growth fits the quota of the chain's last inode, if it has one. -/
def verifyLast (view : View) (growth : Counts) (chain : Chain) :
    Except Error Unit := do
  let inode ← view.get chain.last
  match inode.quota.bind (·.firstExceeded growth) with
  | some exceeded => throw (.quotaExceeded (exceeded.locatedAt chain.path))
  | none => pure ()

/-- The growth fits the quotas at the ends of chains, up to one that ends in the
exempt inode. -/
def verifyEach (view : View) (growth : Counts) (exempt : Option InodeId) :
    List Chain → Except Error Unit
  | [] => pure ()
  | chain :: above =>
    if some chain.last = exempt then pure ()
    else do
      chain.verifyLast view growth
      verifyEach view growth exempt above

/-- The growth fits the quotas of the first `length` inodes of the chain.  The
exempt inode and those above it have the usage already. -/
def verifyQuota (view : View) (chain : Chain) (length : Nat) (growth : Counts)
    (exempt : Option InodeId) : Except Error Unit :=
  if growth.anyPositive ∧ 0 < length then
    verifyEach view growth exempt (chain.upTo length).ancestry
  else pure ()

end Chain

namespace Work

/-- Enter a change as pending at the chain's inode of number `length`, counted
from 1. -/
def submitAt (chain : Chain) (length : Nat) (delta : Counts) : Work Unit :=
  submit (chain.upTo length).last delta

/-- Account for a change below the chain's inode of number `length`, counted
from 1; when it is `checked`, only if it fits all quotas above. -/
def account (chain : Chain) (length : Nat) (delta : Counts) (checked : Bool) :
    Work Unit := do
  let tx ← MonadState.get
  if tx.keepsQuota ∧ delta.isZero = false ∧ 0 < length then
    if checked then
      read (Chain.verifyQuota · chain length delta none)
    submitAt chain length delta

/-- Account for a change below the parent of the chain's last inode. -/
def accountAbove (chain : Chain) (delta : Counts) (checked : Bool) :
    Work Unit :=
  account chain (chain.length - 1) delta checked

end Work

end QuotaTree
