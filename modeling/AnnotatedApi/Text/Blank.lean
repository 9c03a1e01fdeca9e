/-!
# White space

White space in the sense of the character property `White_Space`: not only blank, tab and the line
ends, but also the no-break space and the spaces of other scripts. A zero-width space is not one.
-/

namespace AnnotatedApi.Text

set_option autoImplicit false

/-- The character property `White_Space`. -/
def isBlank (c : Char) : Bool :=
  let n := c.toNat
  (0x09 ≤ n && n ≤ 0x0D) || n == 0x20 || n == 0x85 || n == 0xA0 || n == 0x1680 ||
    (0x2000 ≤ n && n ≤ 0x200A) || n == 0x2028 || n == 0x2029 || n == 0x202F || n == 0x205F ||
    n == 0x3000

def trimChars (cs : List Char) : List Char :=
  ((cs.dropWhile isBlank).reverse.dropWhile isBlank).reverse

def trim (s : String) : String :=
  String.ofList (trimChars s.toList)

end AnnotatedApi.Text
