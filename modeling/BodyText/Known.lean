/-!
# Known results

A loop that ends because each of its steps uses something up has to know, where it goes on, what
the step came to. `known` pairs a result with that fact.
-/

namespace BodyText

/-- A result, with the fact that it is the result of its expression. -/
def known {α : Type} (a : α) : { b : α // a = b } := ⟨a, rfl⟩

end BodyText
