import LogOrigin.Failure
import LogOrigin.Oracle.Lexical

-- Oracles: whoever analyzes messages and ranks call sites, with a memory that each question may
-- change.

namespace LogOrigin

structure Oracle (σ : Type) where
  analyze : Text → σ → Except Failure Analysis × σ
  rank    : RankRequest → σ → Except Failure (List RankedCall) × σ

namespace Oracle

-- Compares words, and never fails.
def lexical : Oracle Unit where
  analyze t s := (.ok (Lexical.analyze t), s)
  rank r s    := (.ok (Lexical.rank r), s)

def unavailable : Failure :=
  .oracleUnavailable "no oracle configured".toList

-- Fails always.
def absent : Oracle Unit where
  analyze _ s := (.error unavailable, s)
  rank _ s    := (.error unavailable, s)

-- A question to an oracle.
inductive Call where
  | analyze (message : Text)
  | rank (request : RankRequest)
  deriving DecidableEq

-- Keeps a list of all questions, the latest one first.
def logged {σ : Type} (o : Oracle σ) : Oracle (σ × List Call) where
  analyze t s :=
    let (a, m) := o.analyze t s.1
    (a, m, .analyze t :: s.2)
  rank r s    :=
    let (a, m) := o.rank r s.1
    (a, m, .rank r :: s.2)

end Oracle

end LogOrigin
