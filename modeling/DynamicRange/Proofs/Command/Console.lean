import DynamicRange.Command.Console

/-!
# Runs of a command

A command is run in a world of files and lines, and ends with a value or a stop in another one. A
command made of others is run step by step: what a step leaves is where the next one starts, and a
stop ends the run.

## Key results

- `Console.exec_bind_ok`, `Console.exec_bind_error`: one step after another
- `Console.exec_sayAll`: what is printed stands above what was printed before
-/

namespace DynamicRange

namespace Console

variable {α β ε : Type}

/-- A command run in a world: how it ends, and the world it leaves. -/
def exec (command : Console α) (w : World) : Except Stop α × World := command.run.run w

/-- What follows a command runs in the world the command leaves, unless the command has stopped. -/
theorem exec_bind (command : Console α) (next : α → Console β) (w : World) :
    exec (command >>= next) w =
      match command.exec w with
      | (.ok a, w') => (next a).exec w'
      | (.error stop, w') => (.error stop, w') := by
  unfold exec
  rw [ExceptT.run_bind, StateT.run_bind]
  rcases command.run.run w with ⟨_ | _, w'⟩ <;> rfl

/-- A command that goes through hands its value and its world on. -/
theorem exec_bind_ok {command : Console α} {w w' : World} {a : α}
    (h : command.exec w = (.ok a, w')) (next : α → Console β) :
    exec (command >>= next) w = (next a).exec w' := by
  rw [exec_bind, h]

/-- After a command that stops nothing runs. -/
theorem exec_bind_error {command : Console α} {w w' : World} {stop : Stop}
    (h : command.exec w = (.error stop, w')) (next : α → Console β) :
    exec (command >>= next) w = (.error stop, w') := by
  rw [exec_bind, h]

/-- Printing adds a line on top of those already printed. -/
theorem exec_say (line : String) (w : World) :
    exec (say line) w = (.ok (), { w with lines := line :: w.lines }) :=
  rfl

/-- Lines are printed one after another, so that the last one comes to lie on top. -/
theorem exec_sayAll (lines : List String) (w : World) :
    exec (sayAll lines) w = (.ok (), { w with lines := lines.reverse ++ w.lines }) := by
  induction lines generalizing w with
  | nil => rfl
  | cons line lines ih =>
    show exec (say line >>= fun _ => sayAll lines) w = _
    rw [exec_bind_ok (exec_say line w), ih, List.reverse_cons, List.append_assoc]
    rfl

/-- What has not failed does not stop a command. -/
theorem exec_attempt_ok (failure : ε → Failure) (a : α) (w : World) :
    exec (attempt failure (.ok a)) w = (.ok a, w) :=
  rfl

/-- A failure stops the command and is turned into what is reported for it. -/
theorem exec_attempt_error (failure : ε → Failure) (e : ε) (w : World) :
    exec (α := α) (attempt failure (.error e)) w = (.error (.failure (failure e)), w) :=
  rfl

end Console

end DynamicRange
