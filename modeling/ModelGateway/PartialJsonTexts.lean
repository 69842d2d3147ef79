import ModelGateway.JsonToolRuns

/-! What `PartialJson` makes of the texts of plain values: the value, a view of it when the text is cut,
and the position behind it, which counts characters. -/
namespace ModelGateway.JsonToolParser
open Json List PartialJson Utf8

variable {F : Type} {value : Value F} {rest : Text}

end ModelGateway.JsonToolParser
