/-! Marks: the operators and brackets of the expression language.

Each mark has one meaning and may have two spellings: `===` and `!==` are the
same marks as `==` and `!=`. Spellings are tried longest first. -/
namespace PoolScaling.Expr

inductive Mark where
  | equal | unequal | atMost | atLeast | both | either
  | leftParen | rightParen | leftBracket | rightBracket | leftBrace | rightBrace
  | comma | semicolon | dot | colon | question
  | plus | minus | star | slash | percent | bang | less | greater | assign
  deriving Repr, DecidableEq

namespace Mark

def text : Mark → String
  | equal => "==" | unequal => "!=" | atMost => "<=" | atLeast => ">="
  | both => "&&" | either => "||"
  | leftParen => "(" | rightParen => ")" | leftBracket => "[" | rightBracket => "]"
  | leftBrace => "\x7b" | rightBrace => "\x7d"
  | comma => "," | semicolon => ";" | dot => "." | colon => ":" | question => "?"
  | plus => "+" | minus => "-" | star => "*" | slash => "/" | percent => "%"
  | bang => "!" | less => "<" | greater => ">" | assign => "="

/-- Every spelling with its mark, longer ones first. -/
def spellings : List (List Char × Mark) :=
  [(['=', '=', '='], equal), (['!', '=', '='], unequal),
   (['=', '='], equal), (['!', '='], unequal), (['<', '='], atMost), (['>', '='], atLeast),
   (['&', '&'], both), (['|', '|'], either),
   (['('], leftParen), ([')'], rightParen), (['['], leftBracket), ([']'], rightBracket),
   (['{'], leftBrace), (['}'], rightBrace), ([','], comma), ([';'], semicolon),
   (['.'], dot), ([':'], colon), (['?'], question), (['+'], plus), (['-'], minus),
   (['*'], star), (['/'], slash), (['%'], percent), (['!'], bang), (['<'], less),
   (['>'], greater), (['='], assign)]

theorem spelling_length_pos : ∀ s ∈ spellings, 0 < s.1.length := by decide

/-- The longest spelling that `cs` begins with, and its mark. -/
def leading? (cs : List Char) : Option (List Char × Mark) :=
  spellings.find? fun (spelling, _) => spelling.isPrefixOf cs

end Mark

end PoolScaling.Expr
