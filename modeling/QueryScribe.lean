import QueryScribe.Main
import QueryScribe.Proofs.Fallback
import QueryScribe.Proofs.Repetition
import QueryScribe.Proofs.Frame
import QueryScribe.Proofs.Reader.Spans
import QueryScribe.Proofs.HelperUse
import QueryScribe.Proofs.ImportBlock
import QueryScribe.Proofs.ComparisonChains
import QueryScribe.Proofs.ArgumentCheck
import QueryScribe.Proofs.Grouping
import QueryScribe.Proofs.ObjectId
import QueryScribe.Proofs.Dates
import QueryScribe.Proofs.Tuples
import QueryScribe.Proofs.ClosingQuote
import QueryScribe.Proofs.DecimalText
import QueryScribe.Proofs.KeyOrder
import QueryScribe.Proofs.CastTypes
import QueryScribe.Proofs.CalledResults
import QueryScribe.Proofs.IntegerRange
