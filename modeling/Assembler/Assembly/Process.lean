import Assembler.Assembly.Finish
import Assembler.Assembly.Origin
import Assembler.Assembly.Sections
import Assembler.Assembly.Storage
/-!
Statements, one after another.
-/

namespace Assembler.Assembly

/-- Carries out a statement. -/
def process (s : Assembly) (st : Statement) : Assembly :=
  match st.operation with
  | .equ value? length? type? => s.processEqu st value? length? type?
  | .data storageOnly operands => s.processData st storageOnly operands
  | .org operands => s.processOrg st operands
  | .sectionStart kind => s.processSection st kind
  | .counterStart => s.processCounter st
  | .instruction => s.processMachine st
  | .other => s

end Assembler.Assembly
