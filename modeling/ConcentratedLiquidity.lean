import ConcentratedLiquidity.Error
import ConcentratedLiquidity.Word.Basic
import ConcentratedLiquidity.Word.FullProduct
import ConcentratedLiquidity.Word.MulDiv
import ConcentratedLiquidity.Word.BitScan
import ConcentratedLiquidity.Word.SquareRoot
import ConcentratedLiquidity.Signed
import ConcentratedLiquidity.Liquidity
import ConcentratedLiquidity.Fee
import ConcentratedLiquidity.Direction
import ConcentratedLiquidity.Price.Basic
import ConcentratedLiquidity.Price.Amount
import ConcentratedLiquidity.Price.Next
import ConcentratedLiquidity.Price.Ratio
import ConcentratedLiquidity.Price.Logarithm
import ConcentratedLiquidity.Tick.Index
import ConcentratedLiquidity.Tick.ToPrice
import ConcentratedLiquidity.Tick.OfPrice
import ConcentratedLiquidity.Tick.Basic
import ConcentratedLiquidity.Tick.Grid
import ConcentratedLiquidity.Tick.Search
import ConcentratedLiquidity.Tick.List
import ConcentratedLiquidity.Tick.Bitmap
import ConcentratedLiquidity.Tick.Source
import ConcentratedLiquidity.Swap.Step
import ConcentratedLiquidity.Swap.Pool
import ConcentratedLiquidity.Swap.Cursor
import ConcentratedLiquidity.Swap.Quote
import ConcentratedLiquidity.Proofs.Error
import ConcentratedLiquidity.Proofs.Signed
import ConcentratedLiquidity.Proofs.Word.FullProduct
import ConcentratedLiquidity.Proofs.Word.MulDiv
import ConcentratedLiquidity.Proofs.Word.Divisors
import ConcentratedLiquidity.Proofs.Word.BitScan
import ConcentratedLiquidity.Proofs.Word.SquareRoot
import ConcentratedLiquidity.Proofs.Price.Amount
import ConcentratedLiquidity.Proofs.Price.Exact
import ConcentratedLiquidity.Proofs.Price.Split
import ConcentratedLiquidity.Proofs.Price.Change
import ConcentratedLiquidity.Proofs.Price.Next
import ConcentratedLiquidity.Proofs.Price.Formula
import ConcentratedLiquidity.Proofs.Price.Ratio
import ConcentratedLiquidity.Proofs.Price.Logarithm
import ConcentratedLiquidity.Proofs.Tick.ToPrice
import ConcentratedLiquidity.Proofs.Tick.Accuracy
import ConcentratedLiquidity.Proofs.Tick.OfPrice
import ConcentratedLiquidity.Proofs.Tick.Search
import ConcentratedLiquidity.Proofs.Tick.Scan
import ConcentratedLiquidity.Proofs.Tick.Bitmap
import ConcentratedLiquidity.Proofs.Tick.Marks
import ConcentratedLiquidity.Proofs.Tick.Source
import ConcentratedLiquidity.Proofs.Swap.Reach
import ConcentratedLiquidity.Proofs.Swap.Step
import ConcentratedLiquidity.Proofs.Swap.Failure
import ConcentratedLiquidity.Proofs.Tick.Stop
import ConcentratedLiquidity.Proofs.Tick.Sweep
import ConcentratedLiquidity.Proofs.Swap.Advance
import ConcentratedLiquidity.Proofs.Tick.Net
import ConcentratedLiquidity.Proofs.Swap.Run
import ConcentratedLiquidity.Proofs.Swap.Remaining
import ConcentratedLiquidity.Proofs.Swap.Progress
import ConcentratedLiquidity.Proofs.Swap.Course
import ConcentratedLiquidity.Proofs.Swap.Tracking
import ConcentratedLiquidity.Proofs.Swap.Bookkeeping
import ConcentratedLiquidity.Proofs.Swap.Exchange
import ConcentratedLiquidity.Proofs.Swap.Reserve
import ConcentratedLiquidity.Proofs.Swap.RoundTrip
import ConcentratedLiquidity.Proofs.Swap.Nearest
import ConcentratedLiquidity.Proofs.Swap.Monotone
import ConcentratedLiquidity.Proofs.Swap.Alternatives
import ConcentratedLiquidity.Proofs.Swap.Onwards
import ConcentratedLiquidity.Proofs.Swap.Outcome
import ConcentratedLiquidity.Proofs.Tick.Validity
import ConcentratedLiquidity.Proofs.Tick.Window
