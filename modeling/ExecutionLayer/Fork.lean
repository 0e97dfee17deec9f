/-! # Forks

The protocol changed at sixteen points. A fork is one of the resulting sets of rules; forks are
ordered by the time at which they came, so that `Fork.berlin ≤ fork` says that the rules of Berlin
or later ones apply.
-/
namespace ExecutionLayer

inductive Fork where
  | frontier | homestead | daoFork | tangerineWhistle | spuriousDragon | byzantium | constantinople
  | istanbul | muirGlacier | berlin | london | arrowGlacier | grayGlacier | paris | shanghai
  | cancun
deriving DecidableEq, Repr, Inhabited

namespace Fork

def rank : Fork → Nat
  | frontier => 0
  | homestead => 1
  | daoFork => 2
  | tangerineWhistle => 3
  | spuriousDragon => 4
  | byzantium => 5
  | constantinople => 6
  | istanbul => 7
  | muirGlacier => 8
  | berlin => 9
  | london => 10
  | arrowGlacier => 11
  | grayGlacier => 12
  | paris => 13
  | shanghai => 14
  | cancun => 15

instance : LE Fork := ⟨fun a b => a.rank ≤ b.rank⟩

instance : LT Fork := ⟨fun a b => a.rank < b.rank⟩

instance (a b : Fork) : Decidable (a ≤ b) := inferInstanceAs (Decidable (a.rank ≤ b.rank))

instance (a b : Fork) : Decidable (a < b) := inferInstanceAs (Decidable (a.rank < b.rank))

def name : Fork → String
  | frontier => "frontier"
  | homestead => "homestead"
  | daoFork => "dao_fork"
  | tangerineWhistle => "tangerine_whistle"
  | spuriousDragon => "spurious_dragon"
  | byzantium => "byzantium"
  | constantinople => "constantinople"
  | istanbul => "istanbul"
  | muirGlacier => "muir_glacier"
  | berlin => "berlin"
  | london => "london"
  | arrowGlacier => "arrow_glacier"
  | grayGlacier => "gray_glacier"
  | paris => "paris"
  | shanghai => "shanghai"
  | cancun => "cancun"

def all : List Fork := [
  frontier, homestead, daoFork, tangerineWhistle, spuriousDragon, byzantium, constantinople,
  istanbul, muirGlacier, berlin, london, arrowGlacier, grayGlacier, paris, shanghai, cancun]

end Fork

end ExecutionLayer
