import Mathlib.Data.Nat.Notation

/-!
# `ctype.c`

An `int` is a `UInt32`: the source compares as unsigned.
-/

namespace Citadel.Ctype

def isalpha (c : UInt32) : Bool := (c ||| 32) - 97 < 26

def isblank (c : UInt32) : Bool := c == 32 || c == 9

def iscntrl (c : UInt32) : Bool := c < 0x20 || c == 0x7f

def isdigit (c : UInt32) : Bool := c - 48 < 10

def isgraph (c : UInt32) : Bool := c - 0x21 < 0x5e

def islower (c : UInt32) : Bool := c - 97 < 26

def isprint (c : UInt32) : Bool := c - 0x20 < 0x5f

def isspace (c : UInt32) : Bool := c == 32 || c - 9 < 5

def isupper (c : UInt32) : Bool := c - 65 < 26

def isxdigit (c : UInt32) : Bool := isdigit c || (c ||| 32) - 97 < 6

def isalnum (c : UInt32) : Bool := isalpha c || isdigit c

def ispunct (c : UInt32) : Bool := isgraph c && !isalnum c

def tolower (c : UInt32) : UInt32 := if isupper c then c ||| 32 else c

def toupper (c : UInt32) : UInt32 := if islower c then c &&& 0x5f else c

end Citadel.Ctype
