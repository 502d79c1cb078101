/-!
# Lists up to a stopping item

Cutting a list behind the first item that satisfies a test: unlike `takeWhile`, the
stopping item belongs to the first part.  A listing that ends at its first error
shows that error.
-/

namespace TypeForge

variable {α : Type}

/-- The items through the first that satisfies `stop`, and the items behind it. -/
def throughFirst (stop : α → Bool) : List α → List α × List α
  | [] => ([], [])
  | a :: as => if stop a then ([a], as) else ((a :: (throughFirst stop as).1), (throughFirst stop as).2)

/-- Cutting loses nothing. -/
theorem throughFirst_append (stop : α → Bool) (as : List α) : (throughFirst stop as).1 ++ (throughFirst stop as).2 = as := by
  induction as with
  | nil => rfl
  | cons a as ih => by_cases h : stop a <;> simp [throughFirst, h, ih]

end TypeForge
